import Mathlib.Data.List.Sort
import Mathlib.Data.Finset.Basic

/-!
# Occurrence matching for identity recognition

The stored rows of a conversation are matched to the occurrences of the host
view. Rows with the same admissible keys are one type, and the search for an
augmenting path walks types and keys, never single rows; the row assignment is
derived only at the end from the counts `units`.

A Python dictionary is a function where only its values are read and an
association list where its order is read. The value `None` marks an absent key
in the source, so keys are values of an arbitrary type `K` and the marker is
`Option.none`.
-/
namespace RecognitionMatching

variable {K O ρ : Type} [DecidableEq K]

def matchWorkPerItem : Nat := 32
def matchWorkFloor : Nat := 4096

/-- The occurrences of one key, in view order. -/
def slots (occurrences : List (O × K)) (k : K) : List O :=
  (occurrences.filter (fun o => o.2 = k)).map Prod.fst

/-- The keys of the dictionary `slots`. -/
def slotKeys (occurrences : List (O × K)) : List K := (occurrences.map Prod.snd).dedup

/-- `set.update`: the keys of a row in the order they were first listed. -/
def addKeys (s ks : List K) : List K :=
  ks.foldl (fun s k => if k ∈ s then s else s ++ [k]) s

/-- `merged.setdefault(sid, set()).update(ks)`. -/
def mergeRow (sid : Int) (ks : List K) : List (Int × List K) → List (Int × List K)
  | [] => [(sid, addKeys [] ks)]
  | (sid', s) :: rest =>
    if sid' = sid then (sid', addKeys s ks) :: rest else (sid', s) :: mergeRow sid ks rest

/-- The union of the listings of each store id, in order of first appearance. -/
def merged (storeId : ρ → Int) (keysOf : ρ → List K) (rows : List ρ) : List (Int × List K) :=
  rows.foldl (fun acc row => mergeRow (storeId row) (keysOf row) acc) []

/-- The type of a row: its keys that have an occurrence, sorted by `repr`. -/
def kindOf (repr : K → String) (occurrences : List (O × K)) (ks : List K) : List K :=
  (ks.filter (fun k => k ∈ slotKeys occurrences)).insertionSort (fun a b => repr a ≤ repr b)

def kinds (repr : K → String) (storeId : ρ → Int) (keysOf : ρ → List K) (rows : List ρ)
    (occurrences : List (O × K)) : List (Int × List K) :=
  (merged storeId keysOf rows).map (fun r => (r.1, kindOf repr occurrences r.2))

/-- What the loop over the rows carries: `units` counts, for a type and a key,
the rows of the type placed on the key. -/
structure MatchState (K : Type) where
  load : K → Nat
  units : List K → K → Nat
  matched : Finset Int
  movable : K → List (List K)
  dead : Finset K
  work : Nat
  spent : Bool

def initial : MatchState K where
  load := fun _ => 0
  units := fun _ _ => 0
  matched := ∅
  movable := fun _ => []
  dead := ∅
  work := 0
  spent := false

/-- One search adds its parents, the part of the queue not yet walked, the types
already expanded and the free key it ended at. -/
structure Search (K : Type) extends MatchState K where
  parent : List (K × Option (List K × K))
  queue : List K
  seen : List (List K)
  found : Option K

def Search.parentKeys (s : Search K) : List K := s.parent.map Prod.fst

/-- Record a newly reached key with its parent pointer. -/
def Search.visit (s : Search K) (k : K) (e : Option (List K × K)) : Search K :=
  { s with parent := s.parent ++ [(k, e)] }

/-- A full key with nothing that can leave it is dead, any other is queued. -/
def Search.enqueue (s : Search K) (k : K) : Search K :=
  if s.movable k = [] then { s with dead := insert k s.dead } else { s with queue := s.queue ++ [k] }

/-- The loop over `others`, the keys a unit of `kind` on `k` could move to. -/
def scanOthers (cap : K → Nat) (budget : Nat) (kind : List K) (k : K) : List K → Search K → Search K
  | [], s => s
  | other :: rest, s =>
    if other ∈ s.parentKeys then scanOthers cap budget kind k rest s
    else if s.work = budget then { s with spent := true }
    else
      let s' := { s with work := s.work + 1 }.visit other (some (kind, k))
      if s'.load other < cap other then { s' with found := some other }
      else scanOthers cap budget kind k rest (s'.enqueue other)

/-- The keys other than `k` a unit of `kind` can still move to. -/
def othersOf (dead : Finset K) (kind : List K) (k : K) : List K :=
  kind.filter (fun other => other ≠ k ∧ other ∉ dead)

/-- `elif kind not in seen`: a type is walked from one key only. -/
def expandKind (cap : K → Nat) (budget : Nat) (kind : List K) (k : K) (s : Search K) : Search K :=
  if kind ∈ s.seen then s
  else scanOthers cap budget kind k (othersOf s.dead kind k) { s with seen := kind :: s.seen }

/-- The loop over `movable[k]`; the second component is the list `gone`. -/
def scanKinds (cap : K → Nat) (budget : Nat) (k : K) :
    List (List K) → Search K → Search K × List (List K)
  | [], s => (s, [])
  | kind :: rest, s =>
    if s.work = budget then ({ s with spent := true }, [])
    else
      let s := { s with work := s.work + 1 }
      if othersOf s.dead kind k = [] then
        let r := scanKinds cap budget k rest s
        (r.1, kind :: r.2)
      else
        let s := expandKind cap budget kind k s
        if s.found.isSome || s.spent then (s, []) else scanKinds cap budget k rest s

/-- One key of the queue: expand its types, then drop those stuck on it. -/
def expand (cap : K → Nat) (budget : Nat) (k : K) (s : Search K) : Search K :=
  let r := scanKinds cap budget k (s.movable k) s
  { r.1 with movable := Function.update r.1.movable k ((r.1.movable k).filter (fun kind => kind ∉ r.2)) }

/-- The breadth-first walk over the growing queue. A key enters the queue at
most once, so the number of keys bounds the passes. -/
def walk (cap : K → Nat) (budget : Nat) : Nat → Search K → Search K
  | 0, s => s
  | fuel + 1, s =>
    match s.queue with
    | [] => s
    | k :: queue =>
      let s := expand cap budget k { s with queue := queue }
      if s.found.isSome || s.spent then s else walk cap budget fuel s

/-- The keys of the new row start the search. -/
def start (own : List K) (st : MatchState K) : Search K :=
  own.foldl
    (fun s k => if k ∈ s.dead then s else (s.visit k none).enqueue k)
    { st with parent := [], queue := [], seen := [], found := none }

def search (cap : K → Nat) (budget fuel : Nat) (own : List K) (st : MatchState K) : Search K :=
  let s := walk cap budget fuel (start own st)
  if s.found.isNone && !s.spent then { s with dead := s.dead ∪ s.parentKeys.toFinset } else s

/-- `movable[k][kind] = None`: an ordered set. -/
def addMovable (movable : K → List (List K)) (k : K) (kind : List K) : K → List (List K) :=
  Function.update movable k (if kind ∈ movable k then movable k else movable k ++ [kind])

def addUnit (units : List K → K → Nat) (kind : List K) (k : K) : List K → K → Nat :=
  Function.update units kind (Function.update (units kind) k (units kind k + 1))

def dropUnit (units : List K → K → Nat) (kind : List K) (k : K) : List K → K → Nat :=
  Function.update units kind (Function.update (units kind) k (units kind k - 1))

/-- One unit of `kind` moves from `previous` to `found`. -/
def move (kind : List K) (previous found : K) (st : MatchState K) : MatchState K :=
  let units := dropUnit st.units kind previous
  let movable := if units kind previous = 0
    then Function.update st.movable previous ((st.movable previous).filter (fun t => t ≠ kind))
    else st.movable
  { st with units := addUnit units kind found, movable := addMovable movable found kind }

/-- The `while previous is not None` loop back along the parents. -/
def shift (parent : List (K × Option (List K × K))) : Nat → MatchState K → K → MatchState K × K
  | 0, st, found => (st, found)
  | fuel + 1, st, found =>
    match parent.lookup found with
    | some (some (kind, previous)) => shift parent fuel (move kind previous found st) previous
    | _ => (st, found)

/-- A row whose search found the free key `found`. -/
def place (sid : Int) (own : List K) (parent : List (K × Option (List K × K))) (found : K)
    (st : MatchState K) : MatchState K :=
  let r := shift parent parent.length
    { st with load := Function.update st.load found (st.load found + 1) } found
  let st := { r.1 with matched := insert sid r.1.matched, units := addUnit r.1.units own r.2 }
  if 1 < own.length then { st with movable := addMovable st.movable r.2 own } else st

/-- One pass of the loop over the rows. -/
def matchRow (cap : K → Nat) (budget fuel : Nat) (st : MatchState K) (row : Int × List K) :
    MatchState K :=
  match row.2.find? (fun k => st.load k < cap k) with
  | some k => place row.1 row.2 [] k st
  | none =>
    if row.2 = [] ∨ st.spent = true then st
    else
      let s := search cap budget fuel row.2 st
      match s.found with
      | some k => place row.1 row.2 s.parent k s.toMatchState
      | none => s.toMatchState

/-- A type's rows fill its keys by `units`, keys in order; a key's rows take its
occurrences in view order. `none` is `StopIteration` or `IndexError`. -/
def assign (slots : K → List O) (st : MatchState K) :
    List (Int × List K) → (List K → K → Nat) → (K → Nat) → Option (List (Int × O))
  | [], _, _ => some []
  | (sid, kind) :: rest, given, taken =>
    if sid ∈ st.matched then
      match kind.find? (fun k => given kind k < st.units kind k) with
      | none => none
      | some k =>
        match (slots k)[taken k]? with
        | none => none
        | some o =>
          (assign slots st rest (addUnit given kind k) (Function.update taken k (taken k + 1))).map
            (fun out => (sid, o) :: out)
    else assign slots st rest given taken

/-- The state after the first `n` rows of the loop. -/
def matchPrefix (repr : K → String) (storeId : ρ → Int) (keysOf : ρ → List K) (rows : List ρ)
    (occurrences : List (O × K)) (n : Nat) : MatchState K :=
  let kinds := kinds repr storeId keysOf rows occurrences
  let keys := slotKeys occurrences
  let budget := matchWorkPerItem * (kinds.length + occurrences.length + keys.length) + matchWorkFloor
  (kinds.take n).foldl (matchRow (fun k => (slots occurrences k).length) budget keys.length) initial

/-- The state after the loop over the rows. -/
def matchRows (repr : K → String) (storeId : ρ → Int) (keysOf : ρ → List K) (rows : List ρ)
    (occurrences : List (O × K)) : MatchState K :=
  matchPrefix repr storeId keysOf rows occurrences (kinds repr storeId keysOf rows occurrences).length

/-- `_match_occurrences`: the returned map, in store order. -/
def matchOccurrences (repr : K → String) (storeId : ρ → Int) (keysOf : ρ → List K) (rows : List ρ)
    (occurrences : List (O × K)) : Option (List (Int × O)) :=
  assign (slots occurrences) (matchRows repr storeId keysOf rows occurrences)
    (kinds repr storeId keysOf rows occurrences) (fun _ _ => 0) (fun _ => 0)

end RecognitionMatching
