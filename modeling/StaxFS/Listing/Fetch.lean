import StaxFS.Layout

/-!
# One client fetches a listing that does not change

The fetch loop of `LoadMergedDirents` in `client/posix_wrapper.cc` for one metadata server, with
`GetDentViews` of `server/metadata.cc` behind it and `ValidateDentViewStream` on every chunk. The
client asks for the bytes behind those it has and stops when it gets none. The server keeps a staged
copy of the serialised listing, drops it together with the last record, and so has to build it once
more for the call that ends the loop; a copy may also expire between any two calls.

A loop without a bound is run with fuel, and the result says that it ended.

Results:
* `serve_spec`: at a record boundary a chunk is one or more whole records, unless none are left.
* `fetch_covers_listing`: the loop ends, its chunks are whole records and add up to the serialised
  listing, and each of them passes the check of the client.
-/

namespace StaxFS.Wal

open Layout List Option

/-! ### Chunks -/

/-- `PendingListings::Listing`. -/
structure StagedListing where
  bytes : List Byte
  recordOffsets : List Nat
deriving DecidableEq, Repr

/-- The offsets at which records start and end, the first record starting at `pos`. -/
def offsetsFrom : Nat → List DentView → List Nat
  | pos, [] => [pos]
  | pos, v :: vs => pos :: offsetsFrom (pos + viewRecLen v) vs

/-- The builder in `GetDentViews`. -/
def StagedListing.ofViews (views : List DentView) : StagedListing :=
  ⟨stream viewBytes views, offsetsFrom 0 views⟩

/-- The part of `GetDentViews` behind `GetOrStage`: the chunk, and whether the listing is released.
-/
def StagedListing.serve (l : StagedListing) (size target : Nat) : List Byte × Bool :=
  if l.bytes.length ≤ target then ([], true)
  else if l.recordOffsets.find? (target ≤ ·) ≠ some target then ([], true)
  else
    let endPos := ((l.recordOffsets.takeWhile (· ≤ target + size)).getLast?).getD 0
    if endPos ≤ target then ([], true)
    else ((l.bytes.drop target).take (endPos - target), endPos == l.bytes.length)

/-- The offsets of a listing in two parts. -/
theorem offsetsFrom_append (xs ys : List DentView) (pos : Nat) :
    ∃ front, offsetsFrom pos (xs ++ ys) =
        front ++ offsetsFrom (pos + (stream viewBytes xs).length) ys ∧
      ∀ p ∈ front, p < pos + (stream viewBytes xs).length := by
  induction xs generalizing pos with
  | nil => exact ⟨[], rfl, forall_mem_nil _⟩
  | cons v xs ih =>
    obtain ⟨front, hfront, hlt⟩ := ih (pos + viewRecLen v)
    have hlen : (stream viewBytes (v :: xs)).length =
        viewRecLen v + (stream viewBytes xs).length := by
      rw [stream_cons, length_append, length_viewBytes]
    have hpos : 0 < viewRecLen v := by
      unfold viewRecLen
      omega
    refine ⟨pos :: front, ?_, fun p hp => ?_⟩
    · rw [cons_append, offsetsFrom, hfront, hlen, Nat.add_assoc, cons_append]
    · rcases mem_cons.mp hp with rfl | hp
      · omega
      · have := hlt p hp
        omega

theorem offsetsFrom_head (pos : Nat) (vs : List DentView) :
    ∃ rest, offsetsFrom pos vs = pos :: rest := by
  cases vs with
  | nil => exact ⟨[], rfl⟩
  | cons v vs => exact ⟨_, rfl⟩

/-- The last offset up to `limit` is the end of a number of whole records: at least of one, if there
is one and it ends before `limit`. -/
theorem lastOffset (ys : List DentView) (pos limit : Nat) (hpos : pos ≤ limit) :
    ∃ zs ys', ys = zs ++ ys' ∧
      ((offsetsFrom pos ys).takeWhile (· ≤ limit)).getLast? =
        some (pos + (stream viewBytes zs).length) ∧
      (∀ v rest, ys = v :: rest → pos + viewRecLen v ≤ limit → zs ≠ []) := by
  induction ys generalizing pos with
  | nil =>
    refine ⟨[], [], rfl, ?_, fun v rest h => by cases h⟩
    simp [offsetsFrom, hpos]
  | cons v ys ih =>
    by_cases hnext : pos + viewRecLen v ≤ limit
    · obtain ⟨zs, ys', rfl, hlast, -⟩ := ih (pos + viewRecLen v) hnext
      refine ⟨v :: zs, ys', rfl, ?_, fun _ _ _ _ => cons_ne_nil v zs⟩
      rw [offsetsFrom, takeWhile_cons_of_pos (by simpa using hpos), getLast?_cons, hlast,
        stream_cons, length_append, length_viewBytes, getD_some, Nat.add_assoc]
    · refine ⟨[], v :: ys, rfl, ?_, fun u rest h hu => ?_⟩
      · obtain ⟨rest, hrest⟩ := offsetsFrom_head (pos + viewRecLen v) ys
        rw [offsetsFrom, hrest, takeWhile_cons_of_pos (by simpa using hpos),
          takeWhile_cons_of_neg (by simpa using hnext)]
        rfl
      · cases h
        exact absurd hu hnext

/-- **A chunk is whole records**: one or more of those behind the offset, or none if none are left.
-/
theorem serve_spec {xs ys : List DentView} {size : Nat} (hsize : ∀ v ∈ ys, viewRecLen v ≤ size) :
    ∃ zs ys', ys = zs ++ ys' ∧ (zs = [] → ys = []) ∧
      ((StagedListing.ofViews (xs ++ ys)).serve size (stream viewBytes xs).length).1 =
        stream viewBytes zs := by
  unfold StagedListing.serve StagedListing.ofViews
  dsimp only
  rw [stream_append]
  cases ys with
  | nil =>
    refine ⟨[], [], rfl, fun _ => rfl, ?_⟩
    rw [if_pos (by simp)]
    rfl
  | cons v ys =>
    have hrec : 0 < viewRecLen v ∧ viewRecLen v ≤ size :=
      ⟨Nat.succ_pos _, hsize v mem_cons_self⟩
    obtain ⟨front, hoffs, hfront⟩ := offsetsFrom_append xs (v :: ys) 0
    rw [Nat.zero_add] at hoffs hfront
    set target := (stream viewBytes xs).length with htarget
    obtain ⟨zs, ys', hsplit, hlast, hsome⟩ := lastOffset (v :: ys) target (target + size)
      (Nat.le_add_right _ _)
    have hzs : zs ≠ [] := hsome v ys rfl (by omega)
    have hzlen : 0 < (stream viewBytes zs).length := by
      exact length_pos_of_ne_nil fun h => hzs (stream_eq_nil viewBytes_ne_nil h)
    -- the offset is a record boundary
    have hfind : (offsetsFrom 0 (xs ++ v :: ys)).find? (target ≤ ·) = some target := by
      rw [hoffs, find?_append, find?_eq_none.mpr fun p hp => by simpa using hfront p hp]
      rw [offsetsFrom, find?_cons_of_pos (by simp)]
      rfl
    have hend : ((offsetsFrom 0 (xs ++ v :: ys)).takeWhile (· ≤ target + size)).getLast? =
        some (target + (stream viewBytes zs).length) := by
      rw [hoffs, takeWhile_append_of_pos fun p hp => by
        have := hfront p hp
        simp only [decide_eq_true_eq]
        omega, getLast?_append, hlast]
      rfl
    refine ⟨zs, ys', hsplit, fun h => absurd h hzs, ?_⟩
    rw [if_neg (by rw [length_append, stream_cons, length_append,
      length_viewBytes]; omega),
      if_neg (not_not.mpr hfind), hend, getD_some, if_neg (by omega)]
    dsimp only
    rw [drop_left' htarget.symm, hsplit, stream_append, Nat.add_sub_cancel_left,
      take_left' rfl]

/-! ### The two sides -/

/-- `GetDentViews` for a key whose listing is `views`: what it returns, and the staged copy after
it. `offset` is an `int`. -/
def getDentViews (views : List DentView) (staged : Option StagedListing) (size offset : Nat) :
    List Byte × Option StagedListing :=
  if 2 ^ 31 ≤ offset % 2 ^ 32 then ([], staged)
  else
    let listing := staged.getD (.ofViews views)
    let r := listing.serve size (offset % 2 ^ 32)
    (r.1, if r.2 then none else some listing)

/-- The loop of `ValidateDentViewStream`, from `pos`. -/
def validateLoop (buf : List Byte) : Nat → Nat → Bool
  | 0, _ => false
  | fuel + 1, pos =>
    if pos + kViewName ≤ buf.length then
      if viewRecLenAt buf pos < kViewName + 1 ∨ buf.length < pos + viewRecLenAt buf pos then false
      else validateLoop buf fuel (pos + viewRecLenAt buf pos)
    else pos == buf.length

/-- `ValidateDentViewStream`. Every turn of its loop goes at least one byte further. -/
def validateDentViewStream (buf : List Byte) : Bool := validateLoop buf (buf.length + 1) 0

/-- How the fetch loop of a server ends. -/
inductive FetchEnd
  /-- `LoadMergedDirents` returns false -/
  | malformed
  /-- no more bytes; the chunks in the order in which they came -/
  | done (chunks : List (List Byte))
deriving DecidableEq

/-- The fetch loop for one server; `expired offset`: the staged copy has expired when the call at
`offset` arrives. `none`: the fuel was not enough. -/
def fetchLoop (views : List DentView) (chunkSize : Nat) (expired : Nat → Bool) :
    Nat → Option StagedListing → Nat → List (List Byte) → Option FetchEnd
  | 0, _, _, _ => none
  | fuel + 1, staged, offset, chunks =>
    let r := getDentViews views (if expired offset then none else staged) chunkSize offset
    if r.1 = [] then some (.done chunks)
    else if validateDentViewStream r.1 then
      fetchLoop views chunkSize expired fuel r.2 (offset + r.1.length) (chunks ++ [r.1])
    else some .malformed

/-! ### The check of the client -/

/-- From a record boundary on, whole records pass. -/
theorem validateLoop_stream {front : List Byte} {vs : List DentView}
    (hfit : ∀ v ∈ vs, FitsView v) {fuel : Nat} (hfuel : vs.length < fuel) :
    validateLoop (front ++ stream viewBytes vs) fuel front.length = true := by
  induction vs generalizing front fuel with
  | nil =>
    obtain ⟨fuel, rfl⟩ : ∃ k, fuel = k + 1 := ⟨fuel - 1, by simp at hfuel; omega⟩
    simp [validateLoop, kViewName]
  | cons v vs ih =>
    obtain ⟨fuel, rfl⟩ : ∃ k, fuel = k + 1 := ⟨fuel - 1, by simp at hfuel; omega⟩
    set buf := front ++ stream viewBytes (v :: vs) with hbuf
    have hbuf' : buf = (front ++ viewBytes v) ++ stream viewBytes vs := by
      rw [hbuf, stream_cons, append_assoc]
    have hdrop : buf.drop front.length = viewBytes v ++ stream viewBytes vs := by
      rw [hbuf, drop_left, stream_cons]
    have hrec : viewRecLenAt buf front.length = viewRecLen v := by
      rw [(viewAt_bytes (hfit v mem_cons_self) hdrop).2, length_viewBytes]
    have hlen : buf.length = front.length + viewRecLen v + (stream viewBytes vs).length := by
      rw [hbuf', length_append, length_append, length_viewBytes]
    have hpos : kViewName + 1 ≤ viewRecLen v := by
      unfold viewRecLen
      omega
    have hnext := @ih (front ++ viewBytes v) (fun u hu => hfit u (mem_cons_of_mem v hu)) fuel
      (by simpa using hfuel)
    rw [length_append, length_viewBytes, ← hbuf'] at hnext
    unfold validateLoop
    rw [if_pos (by omega), hrec, if_neg (by omega), hnext]

theorem validate_stream {vs : List DentView} (hfit : ∀ v ∈ vs, FitsView v) :
    validateDentViewStream (stream viewBytes vs) = true := by
  have hle : vs.length ≤ (stream viewBytes vs).length := by
    clear hfit
    induction vs with
    | nil => exact Nat.zero_le _
    | cons v vs ih =>
      rw [stream_cons, length_append, length_viewBytes, length_cons]
      unfold viewRecLen
      omega
  exact @validateLoop_stream [] vs hfit _ (by omega)

/-! ### The loop -/

variable {xs ys : List DentView}

/-- **A call at a record boundary** returns the next whole records, whether the listing was staged
or is built again, and leaves nothing else staged. -/
theorem getDentViews_spec {chunkSize : Nat} {staged : Option StagedListing}
    (hlen : (stream viewBytes (xs ++ ys)).length < 2 ^ 31)
    (hchunk : ∀ v ∈ ys, viewRecLen v ≤ chunkSize)
    (hstaged : ∀ l, staged = some l → l = .ofViews (xs ++ ys)) :
    ∃ zs ys', ys = zs ++ ys' ∧ (zs = [] → ys = []) ∧
      (getDentViews (xs ++ ys) staged chunkSize (stream viewBytes xs).length).1 =
        stream viewBytes zs ∧
      ∀ l, (getDentViews (xs ++ ys) staged chunkSize (stream viewBytes xs).length).2 = some l →
        l = .ofViews (xs ++ ys) := by
  have hoffset : (stream viewBytes xs).length < 2 ^ 31 := by
    rw [stream_append, length_append] at hlen
    omega
  have hlisting : staged.getD (.ofViews (xs ++ ys)) = .ofViews (xs ++ ys) := by
    cases staged with
    | none => rfl
    | some l => exact hstaged l rfl
  obtain ⟨zs, ys', hsplit, hnil, hserve⟩ := @serve_spec xs ys chunkSize hchunk
  unfold getDentViews
  rw [Nat.mod_eq_of_lt (by omega), if_neg (by omega), hlisting]
  refine ⟨zs, ys', hsplit, hnil, hserve, fun l hl => ?_⟩
  dsimp only at hl
  split at hl
  · cases hl
  · exact (Option.some.inj hl).symm

theorem stream_flatten (parts : List (List DentView)) :
    stream viewBytes parts.flatten = (parts.map (stream viewBytes)).flatten := by
  induction parts with
  | nil => rfl
  | cons part parts ih => rw [flatten_cons, stream_append, ih, map_cons, flatten_cons]

/-- The loop from a record boundary on, after the chunks of `parts`. -/
theorem fetchLoop_from {chunkSize : Nat} {expired : Nat → Bool}
    {staged : Option StagedListing} (hfit : ∀ v ∈ ys, FitsView v)
    (hlen : (stream viewBytes (xs ++ ys)).length < 2 ^ 31)
    (hchunk : ∀ v ∈ ys, viewRecLen v ≤ chunkSize)
    (hstaged : ∀ l, staged = some l → l = .ofViews (xs ++ ys)) {fuel : Nat}
    (hfuel : ys.length < fuel) (chunks : List (List Byte)) :
    ∃ parts : List (List DentView), parts.flatten = ys ∧ (∀ part ∈ parts, part ≠ []) ∧
      fetchLoop (xs ++ ys) chunkSize expired fuel staged (stream viewBytes xs).length chunks =
        some (.done (chunks ++ parts.map (stream viewBytes))) := by
  -- every chunk but the last call's takes at least one record, so the fuel is enough
  induction fuel generalizing xs ys staged chunks with
  | zero => exact absurd hfuel (Nat.not_lt_zero _)
  | succ fuel ih =>
    have hstaged' : ∀ l, (if expired (stream viewBytes xs).length then none else staged) = some l →
        l = .ofViews (xs ++ ys) := by
      intro l hl
      split at hl
      · cases hl
      · exact hstaged l hl
    obtain ⟨zs, ys', rfl, hnil, hbytes, hkeep⟩ := getDentViews_spec hlen hchunk hstaged'
    unfold fetchLoop
    dsimp only
    rw [hbytes]
    by_cases hzs : zs = []
    · have hys := hnil hzs
      subst hzs
      refine ⟨[], ?_, forall_mem_nil _, ?_⟩
      · rw [hys]
        rfl
      · rw [if_pos stream_nil, map_nil, append_nil]
    · have hne : stream viewBytes zs ≠ [] := fun h => hzs (stream_eq_nil viewBytes_ne_nil h)
      have hvalid := validate_stream fun v hv => hfit v (mem_append_left ys' hv)
      have hpos := length_pos_of_ne_nil hzs
      rw [length_append] at hfuel
      rw [← append_assoc] at hlen hkeep
      obtain ⟨parts, hflat, hparts, hloop⟩ := ih
        (fun v hv => hfit v (mem_append_right zs hv)) hlen
        (fun v hv => hchunk v (mem_append_right zs hv)) hkeep (by omega)
        (chunks ++ [stream viewBytes zs])
      refine ⟨zs :: parts, by rw [flatten_cons, hflat],
        forall_mem_cons.mpr ⟨hzs, hparts⟩, ?_⟩
      rw [if_neg hne, if_pos hvalid, ← append_assoc]
      rw [stream_append, length_append] at hloop
      rw [hloop, append_assoc]
      rfl

/-- **Paging covers the listing.** Let the listing stay `views`, with less than `2 ^ 31` bytes, and
let no record be larger than a chunk. Then the loop ends after at most one call more than there are
records; its chunks are one or more whole records each, pass `ValidateDentViewStream`, and are the
serialised listing one after the other. Whether the server's copy was dropped before a call, as it
always is before the last one, makes no difference. -/
theorem fetch_covers_listing {views : List DentView} {chunkSize : Nat}
    (hfit : ∀ v ∈ views, FitsView v) (hlen : (stream viewBytes views).length < 2 ^ 31)
    (hchunk : ∀ v ∈ views, viewRecLen v ≤ chunkSize) (expired : Nat → Bool) {fuel : Nat}
    (hfuel : views.length < fuel) :
    ∃ parts : List (List DentView),
      fetchLoop views chunkSize expired fuel none 0 [] =
        some (.done (parts.map (stream viewBytes))) ∧
      (parts.map (stream viewBytes)).flatten = stream viewBytes views ∧
      parts.flatten = views ∧
      ∀ part ∈ parts, part ≠ [] ∧ validateDentViewStream (stream viewBytes part) = true := by
  obtain ⟨parts, rfl, hparts, hloop⟩ := @fetchLoop_from [] views chunkSize expired none hfit hlen
    hchunk (fun _ h => by cases h) fuel hfuel []
  refine ⟨parts, hloop, ?_, rfl, fun part hp => ⟨hparts part hp, ?_⟩⟩
  · exact (stream_flatten parts).symm
  · exact validate_stream fun v hv => hfit v (mem_flatten_of_mem hp hv)

/-- Three records of 30, 31 and 30 bytes. -/
def threeViews : List DentView :=
  [⟨5, 1, 7, 8, false, [97]⟩, ⟨6, 1, 8, 8, false, [98, 98]⟩, ⟨7, 1, 9, 0, true, [99]⟩]

theorem threeViews_fit : ∀ v ∈ threeViews, FitsView v := by
  intro v hv
  simp only [threeViews, mem_cons, not_mem_nil, or_false] at hv
  rcases hv with rfl | rfl | rfl <;>
    exact ⟨by decide, by decide, by decide, by decide, by decide⟩

theorem fetch_covers_listing_three :
    ∃ parts : List (List DentView),
      fetchLoop threeViews 61 (fun _ => false) 4 none 0 [] =
        some (.done (parts.map (stream viewBytes))) ∧
      (parts.map (stream viewBytes)).flatten = stream viewBytes threeViews ∧
      parts.flatten = threeViews ∧
      ∀ part ∈ parts, part ≠ [] ∧ validateDentViewStream (stream viewBytes part) = true :=
  fetch_covers_listing threeViews_fit (by decide) (by decide) (fun _ => false) (by decide)

end StaxFS.Wal
