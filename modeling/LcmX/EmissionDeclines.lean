import LcmX.EmissionLossless

/-!
# Malformed records

The projection of a loaded record declines what is malformed in it. One field is read before it
is checked: the kind of a descriptor is looked up in a set.
-/
namespace Emission.Record

open Fallible

variable {num : Numbers} {sha256 : List UInt8 → String}

/-! ## Reading a payload -/

theorem lookup_assign (key : String) (value : Json.Value) (other : String) (members : Members) :
    (assign key value members).lookup other = if other = key then some value else members.lookup other := by
  induction members with
  | nil =>
    rw [assign, List.lookup_cons, List.lookup_nil]
    split <;> simp_all
  | cons m members ih =>
    obtain ⟨k, v⟩ := m
    rw [assign]
    by_cases hkey : k = key
    · subst hkey
      rw [if_pos rfl, List.lookup_cons, List.lookup_cons]
      by_cases hother : other = k
      · simp [hother]
      · simp [hother, beq_false_of_ne hother]
    · rw [if_neg hkey, List.lookup_cons, List.lookup_cons, ih]
      by_cases hother : other = k
      · subst hother
        simp [hkey]
      · simp [beq_false_of_ne hother]

theorem get_assign (key : String) (value : Json.Value) (other : String) (members : Members) :
    get (assign key value members) other = if other = key then value else get members other := by
  rw [get, lookup_assign]
  split
  · rfl
  · rfl

theorem get_currentDigest {key other : String} (hne : other ≠ key) (payload : Members) :
    get (currentDigest payload key) other = get payload other := by
  rw [currentDigest]
  split
  · rw [get_assign, if_neg hne]
  · rfl

theorem get_relabelled {key : String} (heffective : key ≠ "effective_sha256")
    (hscaffold : key ≠ "scaffold_sha256") (payload : Members)
    (items : List Json.Value) : get (relabelled payload items) key =
      get (assign "emissions" (.arr (items.filter descriptorShapeIsWellFormed))
      (assign "version" (.int 4) payload)) key := by
  rw [relabelled, List.foldl_cons, List.foldl_cons, List.foldl_nil, get_currentDigest hscaffold,
    get_currentDigest heffective]

/-- The descriptors of a stored record. -/
def storedEmissions : Json.Value → List Json.Value
  | .obj record => (items? (get record "emissions")).getD []
  | _ => []

theorem boundEmissions_some {scope : EngineScope} {payload : Members} {items : List Json.Value}
    (h : boundEmissions num scope payload = some items) : get payload "emissions" = .arr items := by
  rw [boundEmissions] at h
  split at h
  · split at h
    · next hitems => rw [hitems, Option.some.inj h]
    · cases h
  · cases h

/-- A payload of version 4 has the descriptors of the record that have the shape. -/
theorem emissionsOf_payload {scope : EngineScope} {record : Json.Value} {payload : Members}
    (hload : durableCommitProofPayload num scope record = .ok (some payload))
    (hversion : hasVersion num payload 4 = true) :
    emissionsOf payload = .ok ((storedEmissions record).filter descriptorShapeIsWellFormed) := by
  rw [durableCommitProofPayload.eq_def] at hload
  split at hload
  · next members =>
    split at hload
    · cases hload
    · split at hload
      · cases hload
      · split at hload
        · cases hload
        · obtain ⟨stale, -, hload⟩ := bind_ok.mp hload
          cases stale with
          | true => cases hload
          | false =>
            rw [if_neg (by decide)] at hload
            cases hbound : boundEmissions num scope members with
            | some items =>
              rw [hbound] at hload
              cases hload
              have hstored : storedEmissions (.obj members) = items := by
                rw [storedEmissions, boundEmissions_some hbound]
                rfl
              have hemissions : get (relabelled members items) "emissions" = .arr
                  (items.filter descriptorShapeIsWellFormed) := by
                rw [get_relabelled (by decide) (by decide), get_assign, if_pos rfl]
              rw [emissionsOf.eq_def, hemissions, hstored]
            | none =>
              rw [hbound] at hload
              -- a record that is not relabelled keeps its version, which is not 4
              cases hold : hasVersion num members 4 with
              | true =>
                rw [hold] at hload
                cases hload
              | false =>
                rw [hold] at hload
                cases hload
                rw [hasVersion, get_assign, if_neg (by decide)] at hversion
                rw [hasVersion, hversion] at hold
                cases hold
  · cases hload

/-! ## What raises -/

theorem projectDescriptor_unhashable {messages : List Message} {proof : Members} {s : Progress} {descriptor : Members}
    (h : isUnhashable (get descriptor "kind") = true) :
    projectDescriptor num sha256 messages proof s (.obj descriptor) = .error .typeError := by
  rw [projectDescriptor.eq_def]
  simp only
  rw [kindOf_unhashable h]
  rfl

/-- Whether the kind of a stored descriptor has no hash. -/
def hasUnhashableKind : Json.Value → Bool
  | .obj descriptor => isUnhashable (get descriptor "kind")
  | _ => false

/-- A record that is loaded with version 4 is projected, for every list, exactly when no descriptor
that is kept of it has a list or an object as its kind. -/
theorem projects_iff {scope : EngineScope} {record : Json.Value} {payload : Members}
    (hload : durableCommitProofPayload num scope record = .ok (some payload))
    (hversion : hasVersion num payload 4 = true)
    (messages : List Message) :
    (∃ projection, projectEmittedOccurrences num sha256 messages (some payload) = .ok projection) ↔
      ∀ item ∈ storedEmissions record, descriptorShapeIsWellFormed item = true → hasUnhashableKind item = false := by
  rw [project_version4 hversion, emissionsOf_payload hload hversion, bind_of_ok rfl]
  constructor
  · rintro ⟨projection, h⟩ item hitem hshape
    obtain ⟨t, ht, -⟩ := bind_ok.mp h
    obtain ⟨s, s', hpass⟩ := foldlM_passes ht item (List.mem_filter.mpr ⟨hitem, hshape⟩)
    rw [← Bool.not_eq_true]
    intro hkind
    cases item with
    | obj descriptor =>
      rw [projectDescriptor_unhashable hkind] at hpass
      cases hpass
    | _ => cases hkind
  · intro hkinds
    cases hrun : ((storedEmissions record).filter descriptorShapeIsWellFormed).foldlM
      (projectDescriptor num sha256 messages payload)
      (start messages) with
    | ok t => exact ⟨_, rfl⟩
    | error e =>
      obtain ⟨-, descriptor, hmem, hkind⟩ := fails_descriptors _ e hrun
      obtain ⟨hitem, hshape⟩ := List.mem_filter.mp hmem
      have hhashable : isUnhashable (get descriptor "kind") = false := hkinds _ hitem hshape
      rw [hkind] at hhashable
      cases hhashable

/-- A record of one descriptor. -/
def sampleRecord (kind : Json.Value) : Members :=
  [("version", .int 4), ("hermes_home", .str "/home"), ("session_id", .str "s1"),
    ("conversation_id", .str "c1"), ("reset_epoch", .null),
    ("emissions", .arr [.obj [("kind", kind), ("scope", .obj []), ("output_occurrence", .obj [("index", .int 0)])]])]

def boundScope : EngineScope := ⟨"/home", "s1", "c1", .null⟩

def sampleItems (kind : Json.Value) : List Json.Value :=
  [.obj [("kind", kind), ("scope", .obj []), ("output_occurrence", .obj [("index", .int 0)])]]

/-- A kind that is no text at all is declined. -/
theorem number_kind_projects : (∃ projection, projectEmittedOccurrences integers plainDigest emittedRows
      (some (relabelled (sampleRecord (.int 5)) (sampleItems (.int 5)))) = .ok projection) ↔
    ∀ item ∈ storedEmissions (.obj (sampleRecord (.int 5))),
      descriptorShapeIsWellFormed item = true → hasUnhashableKind item = false := by
  have hload : durableCommitProofPayload integers boundScope (.obj (sampleRecord (.int 5))) =
      .ok (some (relabelled (sampleRecord (.int 5)) (sampleItems (.int 5)))) := rfl
  exact projects_iff hload rfl emittedRows

/-- A record whose descriptor has a list as its kind is loaded with version 4, and its projection raises. -/
theorem list_kind_raises :
    durableCommitProofPayload integers boundScope (.obj (sampleRecord (.arr []))) =
      .ok (some (relabelled (sampleRecord (.arr [])) (sampleItems (.arr [])))) ∧
    hasVersion integers (relabelled (sampleRecord (.arr [])) (sampleItems (.arr []))) 4 = true ∧
    projectEmittedOccurrences integers plainDigest emittedRows
    (some (relabelled (sampleRecord (.arr [])) (sampleItems (.arr [])))) =
      .error .typeError :=
  ⟨rfl, rfl, rfl⟩

end Emission.Record
