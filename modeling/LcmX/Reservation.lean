import LcmX.MatchingResult

/-!
# Rows that the view shows as their own

Three passes reserve stored rows: by stamp and form, then by form alone for rows without a
stamp, and then a row without a stamp takes the occurrence of a stamped row that can move to
another occurrence of its own. A stamp is the normalised one, and the row that has none is
a NULL row.
-/
namespace RecognitionMatching

variable {S F O ρ : Type} [DecidableEq S] [DecidableEq F] [DecidableEq O]

/-- `dict(pairs)`: a later pair replaces the value of an earlier one in its place. -/
def dictOf {K : Type} (pairs : List (O × K)) : List (O × K) :=
  pairs.foldl (fun d p => if p.1 ∈ d.map Prod.fst then d.map (fun q => if q.1 = p.1 then p else q) else d ++ [p]) []

/-- What the stored rows are to the three passes. -/
structure Stored (S F ρ : Type) where
  storeId : ρ → Int
  observedAt : ρ → Option S
  formsOf : ρ → List F
  aliases : Int → List (Option S)

/-- The orders by `repr` of the keys of the first pass, of the second, and of the forms. -/
structure Reprs (S F : Type) where
  key : Option S × F → String
  null : String × F → String
  form : F → String

section

variable (stored : Stored S F ρ) (repr : Reprs S F)

def keysOf (row : ρ) : List (Option S × F) :=
  (stored.observedAt row :: stored.aliases (stored.storeId row)).flatMap
    fun stamp => (stored.formsOf row).map fun form => (stamp, form)

def sortedKeys (row : ρ) : List (Option S × F) :=
  (addKeys [] (keysOf stored row)).insertionSort fun a b => repr.key a ≤ repr.key b

def sortedForms (row : ρ) : List F := (stored.formsOf row).insertionSort fun a b => repr.form a ≤ repr.form b

/-- `free` counts the open occurrences of a key, `current` is the key that a stamped row sits on, and `holders` queues
the stamped rows of a form. -/
structure Reroute (S F : Type) where
  free : Option S × F → Nat
  current : Int → Option (Option S × F)
  holders : F → List Int
  out : Finset Int
  work : Nat

/-- The row with the store id that is listed last. -/
def rowOf (pool : List ρ) (sid : Int) : Option ρ := pool.reverse.find? fun row => stored.storeId row = sid

/-- The first other key of a holder with an open occurrence. -/
def targetOf (pool : List ρ) (st : Reroute S F) (sid : Int) : Option (Option S × F) :=
  match rowOf stored pool sid with
  | none => none
  | some row => (sortedKeys stored repr row).find? fun k => some k ≠ st.current sid ∧ 0 < st.free k

/-- The holder moves, and the NULL row takes the occurrence that it left. -/
def reseat (id sid : Int) (target : Option S × F) (st : Reroute S F) : Reroute S F :=
  { st with
    free := Function.update st.free target (st.free target - 1)
    current := Function.update st.current sid (some target)
    holders := Function.update st.holders target.2 (st.holders target.2 ++ [sid])
    out := insert id st.out }

/-- The `while queue` loop over the holders of one form. -/
def tryHolders (pool : List ρ) (budget : Nat) (id : Int) (form : F) : List Int → Reroute S F → Reroute S F
  | [], st => { st with holders := Function.update st.holders form [] }
  | sid :: queue, st =>
    if st.work < budget then
      let st := { st with work := st.work + 1 }
      match targetOf stored repr pool st sid with
      | none => tryHolders pool budget id form queue st
      | some target => reseat id sid target { st with holders := Function.update st.holders form queue }
    else { st with holders := Function.update st.holders form (sid :: queue) }

def routeForms (pool : List ρ) (budget : Nat) (id : Int) : List F → Reroute S F → Reroute S F
  | [], st => st
  | form :: forms, st =>
    let st := if id ∈ st.out then st else tryHolders stored repr pool budget id form (st.holders form) st
    if id ∈ st.out then st else routeForms pool budget id forms st

def routeRows (pool : List ρ) (budget : Nat) : List ρ → Reroute S F → Reroute S F
  | [], st => st
  | row :: rest, st =>
    let st := routeForms stored repr pool budget (stored.storeId row) (sortedForms stored repr row) st
    if budget ≤ st.work then st else routeRows pool budget rest st

/-- The key of the occurrence that the first pass gave a row, when it has a stamp. -/
def heldKey (first : List (Int × O)) (keyOf : List (O × (Option S × F))) (sid : Int) : Option (Option S × F) :=
  match first.lookup sid with
  | none => none
  | some o => (keyOf.lookup o).filter fun k => k.1.isSome

def startReroute (pool : List ρ) (first : List (Int × O)) (taken : List O)
    (keyOf : List (O × (Option S × F))) : Reroute S F :=
  let ids := (pool.map stored.storeId).eraseDups
  { free := fun k => (keyOf.filter fun x => x.2.1.isSome ∧ x.1 ∉ taken ∧ x.2 = k).length
    current := fun sid => if sid ∈ ids then heldKey first keyOf sid else none
    holders := fun form => ids.filter fun sid => (heldKey first keyOf sid).any fun k => k.2 = form
    out := ∅
    work := 0 }

/-- `_reroute_for_null`. -/
def rerouteForNull (pool rest : List ρ) (first : List (Int × O)) (taken : List O)
    (keyOf : List (O × (Option S × F))) : Finset Int :=
  let budget := matchWorkPerItem * (pool.length + keyOf.length) + matchWorkFloor
  (routeRows stored repr pool budget rest (startReroute stored pool first taken keyOf)).out

/-- `_reserve_shown`; `none` stands for an error of a matching. -/
def reserveShown (pool : List ρ) (occurrences : List (O × (Option S × F))) : Option (Finset Int) := do
  let first ← matchOccurrences repr.key stored.storeId (keysOf stored) pool occurrences
  let null := pool.filter fun row => stored.observedAt row = none ∧ stored.storeId row ∉ first.map Prod.fst
  let taken := first.map Prod.snd
  let left := (occurrences.filter fun x => x.2.1.isSome ∧ x.1 ∉ taken).map fun x => (x.1, ("null", x.2.2))
  let reserved := (first.map Prod.fst).toFinset
  if null ≠ [] ∧ left ≠ [] then
    let second ← matchOccurrences repr.null stored.storeId
      (fun row => (stored.formsOf row).map fun form => ("null", form)) null left
    let reserved := reserved ∪ (second.map Prod.fst).toFinset
    let rest := null.filter fun row => stored.storeId row ∉ second.map Prod.fst
    if rest ≠ [] then
      return reserved ∪ rerouteForNull stored repr pool rest first (taken ++ second.map Prod.snd) (dictOf occurrences)
    else return reserved
  else return reserved

end

end RecognitionMatching
