import PmemExamples.WordTree.Crash
import PmemExamples.WordTree.Words

/-! # The word frequencies of files (`binarytree/tree_wordfreq.c`)

`main` splits each file into words and inserts them one by one. On a new pool the tree then counts the
pieces of all maximal runs of letters; a run that fits the buffer is its own only piece. -/

namespace PmemExamples.WordTree
open Persist Libpmem Tiling Pool SearchTree
set_option autoImplicit false

section Run
variable {w : World} {p e : ℕ}

end Run

end PmemExamples.WordTree
