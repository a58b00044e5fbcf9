import StaxFS.Table.State

/-!
# The two-level hash table: candidates, lookups, insertion and movement

Model of the functions of `TwoLevelHashtable` (`server/level_hashtable.h`) that work on buckets:
`get_candidates`, `find_impl`, `update_impl`, `erase_impl`, `insert_impl` with its fallback to
movements (`try_migrate_and_insert`, `same_level_movement_and_place`, `b2t_movement_and_place`), and
the bucket functions under them. The functions are programs over the operations of `Op`.

* A value is a pair of lines. `Hashing` holds the hash and the key traits of the stored values.
* `find_impl`, `update_impl` and `erase_impl` go over the candidates in the same way: first those the
  tag hint reports, then the others, then those that were contended, and once more the levels of the
  new layout if an old bucket was contended. This is `search`, with what is done at a bucket as its
  parameters.
* The two movements and their two-hop form (an extra displacement while a resize is in progress) take
  the placement of a victim into a full bucket as a parameter.
* Loops without a bound take `fuel` turns; one more is the operation `spin`, which never ends.
-/

namespace StaxFS.Table

/-- Hash and key traits (`KeyTraits`, `level_hashtable_traits.h`) of values of two lines. -/
structure Hashing (K L : Type) where
  hash : K → Nat
  extract : L × L → K
  isMatch : L × L → K → Bool
  isMatch_iff : ∀ v k, isMatch v k = true ↔ extract v = k

def kFpMask : Nat := 2 ^ 56 - 1

/-- A 64-bit mixer: add, then twice shift, xor and multiply, then shift and xor. -/
def mix (add shift mul shift' mul' shift'' h : Nat) : Nat :=
  let z := (h + add) % 2 ^ 64
  let z := ((z ^^^ (z >>> shift)) * mul) % 2 ^ 64
  let z := ((z ^^^ (z >>> shift')) * mul') % 2 ^ 64
  z ^^^ (z >>> shift'')

def mixH1 : Nat → Nat :=
  mix 0x9E3779B97F4A7C15 30 0xBF58476D1CE4E5B9 27 0x94D049BB133111EB 31

def mixH2 : Nat → Nat :=
  mix 0xC2B2AE3D27D4EB4F 33 0xFF51AFD7ED558CCD 33 0xC4CEB9FE1A85EC53 33

def fIdx (h levelN : Nat) : Nat := h % (levelN / 2)

def sIdx (h levelN : Nat) : Nat := h % (levelN / 2) + levelN / 2

/-- The level of a candidate: 0, 1 and 2 in the code. -/
inductive Level
  | top
  | bottom
  | oldBottom
deriving DecidableEq

/-- The member that `level_offset` loads. -/
def Level.offset : Level → Member
  | .top => .tlOffset
  | .bottom => .blOffset
  | .oldBottom => .oldBlOffset

/-- One candidate bucket. -/
structure Cand where
  level : Level
  addr : Addr
deriving DecidableEq

/-- `Candidates`: the buckets, and the sizes they were computed with. -/
structure Candidates where
  list : List Cand
  tlOffset : Nat
  tlN : Nat
  blN : Nat

/-- The outcome of a try at one bucket: 1, 0 and -1 in the code. -/
inductive Try (R : Type)
  | hit (r : R)
  | miss
  | contended

variable {K L R : Type}

section Keys

variable (H : Hashing K L)

def Hashing.makeFp (key : K) : Nat :=
  let fp := H.hash key &&& kFpMask
  if fp = 0 then 1 else fp

theorem Hashing.makeFp_ne_zero (key : K) : H.makeFp key ≠ 0 := by
  simp only [Hashing.makeFp]
  split
  · exact Nat.one_ne_zero
  · assumption

/-- The first candidate index of a key on a level of `levelN` buckets. -/
def Hashing.first (key : K) (levelN : Nat) : Nat := fIdx (mixH1 (H.hash key)) levelN

/-- The second candidate index. -/
def Hashing.second (key : K) (levelN : Nat) : Nat := sIdx (mixH2 (H.hash key)) levelN

/-- The two candidates of a key on one level. -/
def Hashing.pair (key : K) (level : Level) (base levelN : Nat) : List Cand :=
  [⟨level, base, H.first key levelN⟩, ⟨level, base, H.second key levelN⟩]

/-- `get_candidates`, for the layout it has loaded. -/
def Hashing.candidates (l : Layout) (key : K) : Candidates where
  list :=
    (if l.active then H.pair key .oldBottom l.oldBlOffset l.oldBlN else []) ++
      H.pair key .top l.tlOffset l.tlN ++ H.pair key .bottom l.blOffset l.blN
  tlOffset := l.tlOffset
  tlN := l.tlN
  blN := l.blN

/-- One turn of the loop of `get_candidates`: the layout as loaded member by member, and whether
`active` was the same before and after. -/
def loadLayout : M L (Bool × Layout) := do
  let active ← perform .loadActive
  let tlOffset ← perform (.loadMember .tlOffset)
  let tlN ← perform (.loadMember .tlN)
  let blOffset ← perform (.loadMember .blOffset)
  let blN ← perform (.loadMember .blN)
  let oldBlOffset ← perform (.loadMember .oldBlOffset)
  let oldBlN ← perform (.loadMember .oldBlN)
  let active' ← perform .loadActive
  return (active == active', ⟨active', tlOffset, tlN, blOffset, blN, oldBlOffset, oldBlN⟩)

/-- The loop of `get_candidates`, for at most `fuel` turns after the first one. -/
def getLayout : Nat → M L Layout
  | 0 => do
    let (same, l) ← loadLayout
    if !same then perform .spin
    return l
  | fuel + 1 => do
    let (same, l) ← loadLayout
    if same then return l else getLayout fuel

def getCandidates (fuel : Nat) (key : K) : M L Candidates := do
  let l ← getLayout fuel
  return H.candidates l key

end Keys

/-! ### One bucket -/

def readHeader (a : Addr) : M L Header := perform (.readHeader a)

/-- `CXLReadSync` of the two lines of a slot. -/
def readValue (a : Addr) (s : Slot) : M L (L × L) := do
  let x ← perform (.readLine a s false)
  let y ← perform (.readLine a s true)
  return (x, y)

/-- `CXLWriteSync` of the two lines of a slot, which goes from the last line to the first. -/
def writeValue (a : Addr) (s : Slot) (v : L × L) : M L Unit := do
  perform (.writeLine a s true v.2)
  perform (.writeLine a s false v.1)

/-- The compare-and-swap that locks a bucket whose header was read as `keys`. -/
def lockBucket (a : Addr) (keys : Header) : M L Bool :=
  perform (.casHeader a keys.word (makeLocked keys.word))

def unlockBucket (a : Addr) (keys : Header) : M L Unit :=
  perform (.writeHeader a (keys.unlocked keys.fp))

def commitBucket (a : Addr) (keys : Header) (target : Slot) (newFp : Nat) : M L Unit :=
  perform (.writeHeader a (keys.unlocked (Function.update keys.fp target newFp)))

def kMaxSpins : Nat := 1000

/-- `wait_for_unlock`: the result, and what it leaves in `keys`. -/
def waitForUnlock (a : Addr) : Nat → Header → M L (Bool × Header)
  | 0, keys => do
    -- the forced clear of a lock whose holder did not finish in time
    let _ ← perform (.casHeader a keys.word { keys.word with dirty := false })
    let keys ← readHeader a
    return (!keys.dirty, keys)
  | spins + 1, _ => do
    let keys ← readHeader a
    if !keys.dirty then return (true, keys) else waitForUnlock a spins keys

/-- Read a header and wait if it is locked; `none` if the wait fails. -/
def readUnlocked (a : Addr) : M L (Option Header) := do
  let keys ← readHeader a
  if keys.dirty then
    let (ok, keys) ← waitForUnlock a kMaxSpins keys
    return if ok then some keys else none
  else return some keys

/-- Lock, write the value in the first empty slot of `keys`, and commit: `none` if the
compare-and-swap fails. The tries of `try_insert_into`, `insert_to_new_layout` and the movements. -/
def place (a : Addr) (keys : Header) (fp : Nat) (v : L × L) : M L (Option Bool) := do
  if !(← lockBucket a keys) then return none
  match keys.findEmptySlot with
  | none => do
    unlockBucket a keys
    return some false
  | some target => do
    writeValue a target v
    commitBucket a keys target fp
    return some true

/-- Look for `key` among the slots with its fingerprint, in a locked bucket. -/
def findLocked (H : Hashing K L) (a : Addr) (keys : Header) (fp : Nat) (key : K) :
    List Slot → M L (Option (Slot × (L × L)))
  | [] => return none
  | s :: ss => do
    if keys.fp s = fp then
      let v ← readValue a s
      if H.isMatch v key then return some (s, v) else findLocked H a keys fp key ss
    else findLocked H a keys fp key ss

def tryEraseFrom (H : Hashing K L) (a : Addr) (keys : Header) (fp : Nat) (key : K) :
    M L (Try (L × L)) := do
  if !(← lockBucket a keys) then return .contended
  match ← findLocked H a keys fp key slots with
  | none => do
    unlockBucket a keys
    return .miss
  | some (s, v) => do
    perform (.writeHeader a (keys.unlocked (Function.update keys.fp s 0)))
    perform (.sizeAdd (-1))
    return .hit v

def tryUpdateIn (H : Hashing K L) (writeFn : L × L → L × L) (a : Addr) (keys : Header) (fp : Nat)
    (key : K) : M L (Try (L × L)) := do
  if !(← lockBucket a keys) then return .contended
  match ← findLocked H a keys fp key slots with
  | none => do
    unlockBucket a keys
    return .miss
  | some (s, v) => do
    writeValue a s (writeFn v)
    unlockBucket a keys
    return .hit v

def scanBucketSlots (H : Hashing K L) (a : Addr) (keys : Header) (fp : Nat) (key : K) :
    List Slot → M L (Try (L × L))
  | [] => return .miss
  | s :: ss => do
    if keys.fp s = 0 ∨ keys.fp s ≠ fp then scanBucketSlots H a keys fp key ss
    else
      let v ← readValue a s
      let keys2 ← readHeader a
      if keys2.word ≠ keys.word then return .contended
      else if H.isMatch v key then return .hit v
      else scanBucketSlots H a keys fp key ss

def findInBucket (H : Hashing K L) (fp : Nat) (key : K) (a : Addr) : M L (Try (L × L)) := do
  let keys ← readHeader a
  if keys.dirty then return .contended
  scanBucketSlots H a keys fp key slots

/-- `try_bucket` of `erase_impl` and `update_impl`: act on a bucket that has the fingerprint. -/
def tryBucket (act : Addr → Header → M L (Try R)) (fp : Nat) (a : Addr) : M L (Try R) := do
  let keys ← readHeader a
  if keys.dirty then return .contended
  else if keys.findFpSlot fp = none then return .miss
  else act a keys

/-! ### Looking for a key -/

/-- The candidates the tag hint reports are tried at once. What is left: the contended ones, and
those the hint did not report. -/
def hinted (fp : Nat) (probe : Addr → M L (Try R)) : List Cand → M L (R ⊕ List Cand × List Cand)
  | [] => return .inr ([], [])
  | c :: cs => do
    if ← perform (.hintTest c.addr fp) then
      match ← probe c.addr with
      | .hit r => return .inl r
      | .miss => hinted fp probe cs
      | .contended =>
        match ← hinted fp probe cs with
        | .inl r => return .inl r
        | .inr (contended, rest) => return .inr (c :: contended, rest)
    else
      match ← hinted fp probe cs with
      | .inl r => return .inl r
      | .inr (contended, rest) => return .inr (contended, c :: rest)

/-- Try the candidates in turn. What is left: the contended ones. -/
def probeAll (probe : Addr → M L (Try R)) : List Cand → M L (R ⊕ List Cand)
  | [] => return .inr []
  | c :: cs => do
    match ← probe c.addr with
    | .hit r => return .inl r
    | .miss => probeAll probe cs
    | .contended =>
      match ← probeAll probe cs with
      | .inl r => return .inl r
      | .inr contended => return .inr (c :: contended)

/-- The first bucket at which `act` has a result. -/
def firstHit (act : Cand → M L (Option R)) : List Cand → M L (Option R)
  | [] => return none
  | c :: cs => do
    match ← act c with
    | some r => return some r
    | none => firstHit act cs

/-- The result of one last try. -/
def orNone (p : M L (Try R)) : M L (Option R) := do
  match ← p with
  | .hit r => return some r
  | .miss => return none
  | .contended => return none

/-- The phases of `find_impl`, `update_impl` and `erase_impl`. -/
def search (fp : Nat) (cands : List Cand) (probe : Addr → M L (Try R))
    (retry : Addr → M L (Option R)) (again : Cand → M L (Option R)) : M L (Option R) := do
  match ← hinted fp probe cands with
  | .inl r => return some r
  | .inr (contended, rest) =>
    match ← probeAll probe rest with
    | .inl r => return some r
    | .inr contended' =>
      let waiting := cands.filter fun c => c ∈ contended ++ contended'
      match ← firstHit (fun c => retry c.addr) waiting with
      | some r => return some r
      | none =>
        if waiting.any fun c => c.level = .oldBottom then
          firstHit again (cands.filter fun c => c.level ≠ .oldBottom)
        else return none

/-- The loop of `find_impl` on a contended bucket. -/
def findRetry (H : Hashing K L) (fp : Nat) (key : K) (a : Addr) : Nat → M L (Option (L × L))
  | 0 => do
    perform .spin
    return none
  | fuel + 1 => do
    let keys ← readHeader a
    if keys.dirty then
      let _ ← waitForUnlock a kMaxSpins keys
      findRetry H fp key a fuel
    else
      match ← scanBucketSlots H a keys fp key slots with
      | .hit v => return some v
      | .miss => return none
      | .contended => findRetry H fp key a fuel

def findImpl (H : Hashing K L) (fuel : Nat) (key : K) : M L (Option (L × L)) := do
  let fp := H.makeFp key
  let cands ← getCandidates H fuel key
  search fp cands.list (findInBucket H fp key) (fun a => findRetry H fp key a fuel)
    fun c => orNone (findInBucket H fp key c.addr)

/-- The loop of `erase_impl` and `update_impl` on a contended bucket. -/
def actRetry (act : Addr → Header → M L (Try R)) (fp : Nat) (a : Addr) : Nat → M L (Option R)
  | 0 => do
    perform .spin
    return none
  | fuel + 1 => do
    match ← readUnlocked a with
    | none => return none
    | some keys =>
      if keys.findFpSlot fp = none then return none
      else
        match ← act a keys with
        | .hit r => return some r
        | .miss => return none
        | .contended => actRetry act fp a fuel

/-- The last pass of `erase_impl` and `update_impl`, at the offset the level has by now. -/
def actAgain (act : Addr → Header → M L (Try R)) (fp : Nat) (c : Cand) : M L (Option R) := do
  let base ← perform (.loadMember c.level.offset)
  orNone (tryBucket act fp ⟨base, c.addr.idx⟩)

/-- What `erase_impl` and `update_impl` do with their `act` on a bucket. -/
def actImpl (H : Hashing K L) (fuel : Nat) (key : K) (act : Addr → Header → Nat → M L (Try R)) :
    M L (Option R) := do
  let fp := H.makeFp key
  let cands ← getCandidates H fuel key
  let act' := fun a keys => act a keys fp
  search fp cands.list (tryBucket act' fp) (fun a => actRetry act' fp a fuel) (actAgain act' fp)

def eraseImpl (H : Hashing K L) (fuel : Nat) (key : K) : M L (Option (L × L)) :=
  actImpl H fuel key fun a keys fp => tryEraseFrom H a keys fp key

def updateImpl (H : Hashing K L) (fuel : Nat) (key : K) (writeFn : L × L → L × L) :
    M L (Option (L × L)) :=
  actImpl H fuel key fun a keys fp => tryUpdateIn H writeFn a keys fp key

/-! ### Insertion -/

/-- Pass 1 of an insertion: `none` if the value was placed, else the contended candidates. -/
def insertPass (fp : Nat) (v : L × L) : List Cand → M L (Option (List Cand))
  | [] => return some []
  | c :: cs => do
    let keys ← readHeader c.addr
    if keys.dirty then
      return (← insertPass fp v cs).map (c :: ·)
    else if !keys.hasEmptySlot then insertPass fp v cs
    else
      match ← place c.addr keys fp v with
      | some true => return none
      | some false => insertPass fp v cs
      | none => return (← insertPass fp v cs).map (c :: ·)

/-- Pass 2 at one contended candidate, `retry < 3`. -/
def insertRetry (fp : Nat) (v : L × L) (a : Addr) : Nat → M L Bool
  | 0 => return false
  | retries + 1 => do
    match ← readUnlocked a with
    | none => return false
    | some keys =>
      if !keys.hasEmptySlot then return false
      else
        match ← place a keys fp v with
        | some r => return r
        | none => insertRetry fp v a retries

/-- The first bucket at which `act` succeeds. -/
def anyOf (act : Cand → M L Bool) : List Cand → M L Bool
  | [] => return false
  | c :: cs => do
    if ← act c then return true else anyOf act cs

/-- The two passes over the candidates of the new levels; whether the value was placed. -/
def insertPasses (fp : Nat) (v : L × L) (cands : List Cand) : M L Bool := do
  match ← insertPass fp v (cands.filter fun c => c.level ≠ .oldBottom) with
  | none => return true
  | some contended => anyOf (fun c => insertRetry fp v c.addr 3) contended

/-! ### Movement -/

/-- How the movements place a victim that goes to a full bucket. -/
abbrev Displace (L : Type) : Type := Addr → Nat → L × L → M L Bool

/-- Without an extra displacement a full bucket is passed over. -/
def noDisplace : Displace L := fun _ _ _ => return false

/-- Place a victim at `b`: in an empty slot, or by `extra` if the bucket is full. -/
def moveTo (extra : Displace L) (b : Addr) (fp : Nat) (v : L × L) : M L Bool := do
  let keys ← readHeader b
  if keys.dirty then return false
  else if !keys.hasEmptySlot then extra b fp v
  else return (← place b keys fp v) == some true

/-- Place a victim at the first of some buckets. -/
def moveToOneOf (extra : Displace L) (fp : Nat) (v : L × L) : List Addr → M L Bool
  | [] => return false
  | b :: bs => do
    if ← moveTo extra b fp v then return true else moveToOneOf extra fp v bs

/-- The loop of a movement over the slots of the locked bucket `a`: the first victim that can be
placed at one of its `targets` makes room for the new entry. -/
def moveSlots (targets : L × L → List Addr) (extra : Displace L) (a : Addr) (keys : Header)
    (fpNew : Nat) (v : L × L) : List Slot → M L Bool
  | [] => do
    unlockBucket a keys
    return false
  | s :: ss => do
    if keys.fp s = 0 then moveSlots targets extra a keys fpNew v ss
    else
      let victim ← readValue a s
      if ← moveToOneOf extra (keys.fp s) victim (targets victim) then
        writeValue a s v
        commitBucket a keys s fpNew
        return true
      else moveSlots targets extra a keys fpNew v ss

/-- Lock a bucket and make room in it for a new entry. -/
def movementAndPlace (targets : L × L → List Addr) (extra : Displace L) (countInsert : Bool)
    (a : Addr) (fpNew : Nat) (v : L × L) : M L Bool := do
  let keys ← readHeader a
  if keys.dirty then return false
  else if !(← lockBucket a keys) then return false
  else if ← moveSlots targets extra a keys fpNew v slots then
    if countInsert then perform (.sizeAdd 1)
    return true
  else return false

/-- The alternate bucket of a victim on the level of the bucket it is in. -/
def sameLevelTargets (H : Hashing K L) (levelN : Nat) (a : Addr) (victim : L × L) : List Addr :=
  let key := H.extract victim
  let jdx := if a.idx < levelN / 2 then H.second key levelN else H.first key levelN
  if jdx = a.idx then [] else [⟨a.base, jdx⟩]

def sameLevelMovementAndPlace (H : Hashing K L) (levelN : Nat) (extra : Displace L)
    (countInsert : Bool) (a : Addr) (fpNew : Nat) (v : L × L) : M L Bool :=
  movementAndPlace (sameLevelTargets H levelN a) extra countInsert a fpNew v

/-- The two top-level buckets of a victim. -/
def b2tTargets (H : Hashing K L) (tlBase tlN : Nat) (victim : L × L) : List Addr :=
  let key := H.extract victim
  [⟨tlBase, H.first key tlN⟩, ⟨tlBase, H.second key tlN⟩]

def b2tMovementAndPlace (H : Hashing K L) (tlBase tlN : Nat) (extra : Displace L)
    (countInsert : Bool) (a : Addr) (fpNew : Nat) (v : L × L) : M L Bool :=
  movementAndPlace (b2tTargets H tlBase tlN) extra countInsert a fpNew v

/-- The extra displacement of a same-level movement: one hop on the level, and on the bottom level
one hop to the top level. -/
def sameLevelExtra (H : Hashing K L) (cands : Candidates) (level : Level) (levelN : Nat) :
    Displace L := fun b fp v => do
  if ← sameLevelMovementAndPlace H levelN noDisplace false b fp v then return true
  else if level = .bottom then
    b2tMovementAndPlace H cands.tlOffset cands.tlN noDisplace false b fp v
  else return false

/-- The extra displacement of a promotion: one hop on the top level. -/
def b2tExtra (H : Hashing K L) (cands : Candidates) : Displace L :=
  sameLevelMovementAndPlace H cands.tlN noDisplace false

def Candidates.levelN (cands : Candidates) : Level → Nat
  | .top => cands.tlN
  | _ => cands.blN

def tryMigrateAndInsert (H : Hashing K L) (fpNew : Nat) (v : L × L) (cands : Candidates) :
    M L Bool := do
  let new := cands.list.filter fun c => c.level ≠ .oldBottom
  let bottom := cands.list.filter fun c => c.level = .bottom
  let b2t := fun extra c => b2tMovementAndPlace H cands.tlOffset cands.tlN extra true
    (Cand.addr c) fpNew v
  let sameLevel := fun (extra : Level → Displace L) c =>
    sameLevelMovementAndPlace H (cands.levelN (Cand.level c)) (extra c.level) true c.addr fpNew v
  -- phases A and B: one hop
  if ← anyOf (sameLevel fun _ => noDisplace) new then return true
  else if ← anyOf (b2t noDisplace) bottom then return true
  -- phase C: an ongoing resize gets one extra displacement
  else if cands.list.any fun c => c.level = .oldBottom then
    if ← anyOf (sameLevel fun level => sameLevelExtra H cands level (cands.levelN level)) new then
      return true
    else anyOf (b2t (b2tExtra H cands)) bottom
  else return false

def insertImpl (H : Hashing K L) (fuel : Nat) (key : K) (v : L × L) : M L Bool := do
  let fp := H.makeFp key
  let cands ← getCandidates H fuel key
  if ← insertPasses fp v cands.list then
    perform (.sizeAdd 1)
    return true
  else tryMigrateAndInsert H fp v cands

end StaxFS.Table
