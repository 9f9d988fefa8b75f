import LcmX.SensitivePatterns

/-!
# Redaction of structured values

The keys of an object are redacted like its values, and a redacted key takes the place of an
earlier one that reads the same. So a value keeps its shape where no two keys of one of its
objects are redacted alike, and only there.
-/
namespace Sensitive

open Regex PyText Ingest Json

section

/- What `\w` matches and the digest in hexadecimal are given. -/
variable (isWord : Char → Bool) (sha256 : List UInt8 → List Char) (active : List PatternName)

/-- `_SENSITIVE_PLACEHOLDER_PREFIX`. -/
def sensitivePlaceholderPrefix : List Char := "[LCM sensitive redaction:".toList

def sensitivePlaceholder (name : PatternName) (secret : List Char) : List Char :=
  sensitivePlaceholderPrefix ++ " name=".toList ++ placeholderMetadata name.text ++ "; chars=".toList ++
    (toString secret.length).toList ++ "; bytes=".toList ++ (toString (encode secret).length).toList ++
    -- a password has no digest
    (if name = .passwordAssignment then [] else "; sha256=".toList ++ (sha256 (encode secret)).take 16) ++ [']']

def redactSensitiveText (text : List Char) : List Char :=
  if text = [] then text
  else (privateKeyFirst active).foldl
    (fun text name => applySensitivePattern isWord name (sensitivePlaceholder sha256 name) text) text

/-- `re.sub(r"[^a-z0-9]+", "_", key.lower()).strip("_")`. -/
def normalizedKey (key : List Char) : List Char :=
  stripBy (· = '_') (sub (plus (.char fun c => !(c.isLower || c.isDigit))) (fun _ => ['_']) (lower key))

def sensitivePatternForKey (key : List Char) : Option PatternName :=
  let normalized := normalizedKey key
  let compact := String.ofList (normalized.filter (· ≠ '_'))
  if .apiKey ∈ active ∧ (compact ∈ ["apikey", "apitoken", "accesstoken", "secretkey", "clientsecret"] ∨
      (contains "api".toList normalized ∧ contains "key".toList normalized) ∨
      (contains "access".toList normalized ∧ contains "token".toList normalized) ∨
      (contains "secret".toList normalized ∧ contains "key".toList normalized)) then some .apiKey
  else if .bearerToken ∈ active ∧
    compact ∈ ["authorization", "authtoken", "bearertoken", "token"] then some .bearerToken
  else if .passwordAssignment ∈ active ∧ compact ∈ ["password", "passwd", "pwd", "passphrase"] then
    some .passwordAssignment
  else none

def redactEntireSensitiveString (text : List Char) (name : PatternName) : List Char :=
  if text = [] ∨ contains sensitivePlaceholderPrefix text then text else sensitivePlaceholder sha256 name text

def redactString (s : String) : String := String.ofList (redactSensitiveText isWord sha256 active s.toList)

/-- The value of a key that names a secret. -/
def redactLabelled (name : PatternName) (s : String) : String :=
  if redactString isWord sha256 active s = s then String.ofList (redactEntireSensitiveString sha256 s.toList name)
  else redactString isWord sha256 active s

mutual

/-- `redact_sensitive_value` with some active patterns; no string is parsed as JSON. -/
def redactValue : Value → Value
  | .str s => .str (redactString isWord sha256 active s)
  | .arr items => .arr (redactItems items)
  | .obj members => .obj (redactMembers [] members)
  | value => value

def redactItems : List Value → List Value
  | [] => []
  | value :: items => redactValue value :: redactItems items

/-- The members of an object, after those that are redacted. -/
def redactMembers (done : List (String × Value)) : List (String × Value) → List (String × Value)
  | [] => done
  | (key, value) :: members =>
    let redacted :=
      match sensitivePatternForKey active key.toList, value with
      | some name, .str s => .str (redactLabelled isWord sha256 active name s)
      | _, _ => redactValue value
    redactMembers (setMember done (redactString isWord sha256 active key) redacted) members

end

def redactSensitiveValue (value : Value) : Value := if active = [] then value
    else redactValue isWord sha256 active value

/-! ## The shape of a value -/

mutual

/-- The nesting with the entries in their order, and the leaves that are no strings. -/
def shape : Value → Value
  | .str _ => .str ""
  | .arr items => .arr (shapeItems items)
  | .obj members => .obj (shapeMembers members)
  | value => value

def shapeItems : List Value → List Value
  | [] => []
  | value :: items => shape value :: shapeItems items

def shapeMembers : List (String × Value) → List (String × Value)
  | [] => []
  | (_, value) :: members => ("", shape value) :: shapeMembers members

end

mutual

/-- No object of the value has two keys that are redacted alike. -/
def KeysApart : Value → Prop
  | .arr items => KeysApartItems items
  | .obj members => (members.map fun m => redactString isWord sha256 active m.1).Nodup ∧ KeysApartMembers members
  | _ => True

def KeysApartItems : List Value → Prop
  | [] => True
  | value :: items => KeysApart value ∧ KeysApartItems items

def KeysApartMembers : List (String × Value) → Prop
  | [] => True
  | (_, value) :: members => KeysApart value ∧ KeysApartMembers members

end

end

variable {isWord : Char → Bool} {sha256 : List UInt8 → List Char} {active : List PatternName}

@[simp] theorem length_shapeMembers (members : List (String × Value)) :
    (shapeMembers members).length = members.length := by
  induction members with
  | nil => rfl
  | cons m members ih => rw [shapeMembers, List.length_cons, List.length_cons, ih]

/-- The redacted value of a member. -/
def redactMember (isWord : Char → Bool) (sha256 : List UInt8 → List Char)
    (active : List PatternName) (m : String × Value) : Value :=
  match sensitivePatternForKey active m.1.toList, m.2 with
  | some name, .str s => .str (redactLabelled isWord sha256 active name s)
  | _, _ => redactValue isWord sha256 active m.2

theorem redactMembers_cons (done : List (String × Value)) (m : String × Value) (members : List (String × Value)) :
    redactMembers isWord sha256 active done (m :: members) =
      redactMembers isWord sha256 active (setMember done (redactString isWord sha256 active m.1)
      (redactMember isWord sha256 active m)) members := by
  obtain ⟨key, value⟩ := m
  rw [redactMembers.eq_def]
  rfl

theorem length_setMember_le (done : List (String × Value)) (key : String) (value : Value) :
    (setMember done key value).length ≤ done.length + 1 := by
  rw [setMember]
  split <;> simp

/-- A key that is there already adds no entry. -/
theorem length_setMember_of_mem {done : List (String × Value)} {key : String}
    (h : key ∈ done.map Prod.fst) (value : Value) :
    (setMember done key value).length = done.length := by
  rw [setMember, if_pos h, List.length_map]

theorem setMember_of_not_mem {done : List (String × Value)} {key : String}
    (h : key ∉ done.map Prod.fst) (value : Value) :
    setMember done key value = done ++ [(key, value)] := by rw [setMember, if_neg h]

theorem length_redactMembers_le (members : List (String × Value)) : ∀ done,
    (redactMembers isWord sha256 active done members).length ≤ done.length + members.length := by
  induction members with
  | nil => exact fun done => Nat.le_refl _
  | cons m members ih =>
    intro done
    rw [redactMembers_cons, List.length_cons]
    have hset := length_setMember_le done (redactString isWord sha256 active m.1) (redactMember isWord sha256 active m)
    have hrest := ih (setMember done (redactString isWord sha256 active m.1) (redactMember isWord sha256 active m))
    omega

/-- Every entry is kept exactly when the redacted keys are new and apart. -/
theorem length_redactMembers_iff (members : List (String × Value)) : ∀ done,
    (redactMembers isWord sha256 active done members).length = done.length + members.length ↔
      (members.map fun m => redactString isWord sha256 active m.1).Nodup ∧
        ∀ m ∈ members, redactString isWord sha256 active m.1 ∉ done.map Prod.fst := by
  induction members with
  | nil => exact fun done => by simp [redactMembers]
  | cons m members ih =>
    intro done
    rw [redactMembers_cons, List.map_cons, List.nodup_cons, List.forall_mem_cons, List.length_cons]
    by_cases hmem : redactString isWord sha256 active m.1 ∈ done.map Prod.fst
    · have hle := @length_redactMembers_le isWord sha256 active members
        (setMember done (redactString isWord sha256 active m.1) (redactMember isWord sha256 active m))
      rw [length_setMember_of_mem hmem] at hle
      exact iff_of_false (by omega) fun h => h.2.1 hmem
    · have hih := ih (done ++ [(redactString isWord sha256 active m.1, redactMember isWord sha256 active m)])
      rw [setMember_of_not_mem hmem]
      rw [List.length_append, List.length_singleton, Nat.add_right_comm, Nat.add_assoc] at hih
      rw [hih]
      simp only [List.map_append, List.map_cons, List.map_nil, List.mem_append, List.mem_singleton,
        not_or, List.mem_map, not_exists, not_and]
      constructor
      · rintro ⟨hnodup, hnew⟩
        exact ⟨⟨fun x hx heq => (hnew x hx).2 heq, hnodup⟩,
          fun x hx heq => hmem (List.mem_map.mpr ⟨x, hx, heq⟩), fun x hx => (hnew x hx).1⟩
      · rintro ⟨⟨hapart, hnodup⟩, -, hnew⟩
        exact ⟨hnodup, fun x hx => ⟨hnew x hx, hapart x hx⟩⟩

theorem redactMembers_apart (members : List (String × Value)) : ∀ done,
    (members.map fun m => redactString isWord sha256 active m.1).Nodup →
      (∀ m ∈ members, redactString isWord sha256 active m.1 ∉ done.map Prod.fst) →
        redactMembers isWord sha256 active done members =
          done ++ members.map fun m =>
          (redactString isWord sha256 active m.1, redactMember isWord sha256 active m) := by
  induction members with
  | nil => exact fun done _ _ => by rw [redactMembers, List.map_nil, List.append_nil]
  | cons m members ih =>
    intro done hnodup hnew
    rw [List.map_cons, List.nodup_cons] at hnodup
    rw [redactMembers_cons, setMember_of_not_mem (hnew m List.mem_cons_self), ih _ hnodup.2,
      List.map_cons, List.append_assoc,
      List.singleton_append]
    intro x hx
    rw [List.map_append, List.mem_append, not_or]
    refine ⟨hnew x (List.mem_cons_of_mem _ hx), fun heq => hnodup.1 ?_⟩
    rw [List.map_singleton, List.mem_singleton] at heq
    exact List.mem_map.mpr ⟨x, hx, heq⟩

/-- The value of a key that names a secret is a string before and after. -/
theorem shape_redactMember (m : String × Value) :
    shape (redactMember isWord sha256 active m) = shape (redactValue isWord sha256 active m.2) := by
  rw [redactMember]
  split
  · next hvalue =>
    rw [hvalue]
    rfl
  · rfl

mutual

theorem shape_redactValue_iff : ∀ value : Value,
    shape (redactValue isWord sha256 active value) = shape value ↔ KeysApart isWord sha256 active value
  | .null => by simp [redactValue, shape, KeysApart]
  | .bool _ => by simp [redactValue, shape, KeysApart]
  | .int _ => by simp [redactValue, shape, KeysApart]
  | .float _ _ => by simp [redactValue, shape, KeysApart]
  | .str _ => by simp [redactValue, shape, KeysApart]
  | .arr items => by
    rw [redactValue, shape, shape, KeysApart, Value.arr.injEq]
    exact shape_redactItems_iff items
  | .obj members => by
    rw [redactValue, shape, shape, KeysApart, Value.obj.injEq]
    have hlength := @length_redactMembers_iff isWord sha256 active members []
    constructor
    · intro h
      have hkept := congrArg List.length h
      rw [length_shapeMembers, length_shapeMembers] at hkept
      have hnodup := (hlength.mp (by rw [hkept, List.length_nil, Nat.zero_add])).1
      rw [redactMembers_apart members [] hnodup (fun _ _ h => by cases h), List.nil_append] at h
      exact ⟨hnodup, (shape_redactMembers_iff members).mp h⟩
    · rintro ⟨hnodup, hvalues⟩
      rw [redactMembers_apart members [] hnodup (fun _ _ h => by cases h), List.nil_append]
      exact (shape_redactMembers_iff members).mpr hvalues

theorem shape_redactItems_iff : ∀ items : List Value,
    shapeItems (redactItems isWord sha256 active items) = shapeItems items ↔ KeysApartItems isWord sha256 active items
  | [] => by simp [redactItems, shapeItems, KeysApartItems]
  | value :: items => by
    rw [redactItems, shapeItems, shapeItems, KeysApartItems, List.cons.injEq,
      shape_redactValue_iff value, shape_redactItems_iff items]

theorem shape_redactMembers_iff : ∀ members : List (String × Value),
    shapeMembers (members.map fun m =>
    (redactString isWord sha256 active m.1, redactMember isWord sha256 active m)) = shapeMembers members ↔
      KeysApartMembers isWord sha256 active members
  | [] => by simp [shapeMembers, KeysApartMembers]
  | (key, value) :: members => by
    rw [List.map_cons, shapeMembers, shapeMembers, KeysApartMembers, List.cons.injEq, Prod.mk.injEq, shape_redactMember,
      shape_redactValue_iff value, shape_redactMembers_iff members]
    simp

end

/-- A value keeps its shape exactly when no object in it has two keys that are redacted alike. -/
theorem redaction_keeps_shape_iff (isWord : Char → Bool) (sha256 : List UInt8 → List Char)
    (active : List PatternName) (value : Value) :
    shape (redactSensitiveValue isWord sha256 active value) = shape value ↔
    (active ≠ [] → KeysApart isWord sha256 active value) := by
  rw [redactSensitiveValue]
  split
  · next hnone => simp [hnone]
  · next hsome =>
    rw [shape_redactValue_iff]
    exact ⟨fun h _ => h, fun h => h hsome⟩

/-- Two keys that hold passwords of one length become one, and an entry is lost. -/
theorem password_keys_collide :
    ¬ ∀ (isWord : Char → Bool) (sha256 : List UInt8 → List Char) (active : List PatternName) (value : Value),
    shape (redactSensitiveValue isWord sha256 active value) = shape value := by
  intro h
  have hshape := h (fun c => isAsciiAlnum c || c = '_') (fun _ => []) [.passwordAssignment]
    (.obj [("pwd=aaaaaa", .int 1), ("pwd=bbbbbb", .int 2)])
  have hlost : (redactMembers (fun c => isAsciiAlnum c || c = '_') (fun _ => []) [.passwordAssignment] []
      [("pwd=aaaaaa", .int 1), ("pwd=bbbbbb", .int 2)]).length = 1 := by
    decide +kernel
  rw [redactSensitiveValue, if_neg (by decide), redactValue, shape, shape, Value.obj.injEq] at hshape
  have hlength := congrArg List.length hshape
  rw [length_shapeMembers, length_shapeMembers, hlost] at hlength
  cases hlength

end Sensitive
