import LcmX.ReplaySnapshot

/-!
# The index of prefixes against the single snapshots

The loop feeds the hash what the envelope of each prefix holds, and its flags say
what that prefix has shown. So an entry differs from the digest of the prefix taken
alone in one thing only: which tool rows count as the newest.
-/
namespace Reconcile

open PyText

/-! ## The envelope -/

theorem dumps_identity (i : ReplayIdentity) : Json.dumps Json.compact i.json =
    '[' :: [','].intercalate ([i.role, i.content, i.toolCallId, i.toolCalls, i.toolName].map
    (Json.quote false)) ++ [']'] := by
  simp [ReplayIdentity.json, Json.dumps, Json.dumpsItems, Json.compact]

def itemText (i : ReplayIdentity) : List Char := Json.dumps Json.compact i.json

theorem itemText_readable : Json.Readable itemText := by
  intro i i' rest rest' h
  simp only [itemText, dumps_identity] at h
  obtain ⟨hfields, hrest⟩ := Json.items_readable Json.quote_readable (fun s => ⟨'"', _, rfl, by decide⟩) _ _ _ _ h
  simp only [List.cons.injEq, and_true] at hfields
  obtain ⟨hrole, hcontent, hid, hcalls, hname⟩ := hfields
  obtain ⟨role, content, toolCallId, toolCalls, toolName⟩ := i
  obtain ⟨role', content', toolCallId', toolCalls', toolName'⟩ := i'
  dsimp only at hrole hcontent hid hcalls hname
  subst hrole hcontent hid hcalls hname
  exact ⟨rfl, hrest⟩

def envelopeOpen : List Char := "\x7b\"messages\":[".toList

def envelopeClose : List Char := "],\"version\":1\x7d".toList

theorem envelopeOpen_eq : envelopeOpen = '\x7b' :: (Json.quote false "messages" ++ [':', '[']) := by decide

theorem envelopeClose_eq : envelopeClose = ']' :: ',' :: (Json.quote false "version" ++ [':', '1', '\x7d']) := by decide

theorem dumps_envelope (identities : List ReplayIdentity) :
    Json.dumps Json.compact (.obj [("version", .int 1), ("messages", .arr (identities.map ReplayIdentity.json))]) =
      envelopeOpen ++ [','].intercalate (identities.map itemText) ++ envelopeClose := by
  have hitems : Json.dumpsItems Json.compact (identities.map ReplayIdentity.json) = identities.map itemText := by
    rw [Json.dumpsItems_map, List.map_map]
    rfl
  have hversion : (toString (1 : Int)).toList = ['1'] := by decide
  have hkeys : ¬ ("version" : String) ≤ "messages" := by decide
  have hsorted : ∀ a b : List Char, ([("version", a), ("messages", b)] : List (String × List Char)).insertionSort
      (fun x y => x.1 ≤ y.1) = [("messages", b), ("version", a)] := by
    intro a b
    rw [List.insertionSort_cons, List.insertionSort_cons, List.insertionSort_nil,
      List.orderedInsert_nil, List.orderedInsert,
      if_neg hkeys]
    rfl
  rw [envelopeOpen_eq, envelopeClose_eq, Json.dumps]
  simp only [Json.dumpsMembers, Json.dumps, hitems, hversion]
  rw [if_pos (show Json.compact.sorted = true from rfl), hsorted]
  simp only [Json.compact, List.map_cons, List.map_nil, List.intercalate_cons_cons,
    List.intercalate_singleton, List.cons_append,
    List.append_assoc, List.nil_append]

theorem snapshotBytes_eq (identities : List ReplayIdentity) : snapshotBytes identities =
    encode envelopeOpen ++ encode ([','].intercalate (identities.map itemText)) ++ encode envelopeClose := by
  rw [snapshotBytes, dumps_envelope, encode_append, encode_append]

/-- The bytes that are hashed tell the identities. -/
theorem snapshotBytes_inj {a b : List ReplayIdentity} (h : snapshotBytes a = snapshotBytes b) : a = b := by
  have htext := encode_inj h
  rw [dumps_envelope, dumps_envelope, List.append_assoc, List.append_assoc,
    List.append_cancel_left_eq, envelopeClose_eq] at htext
  have hread := Json.items_readable itemText_readable (fun i => ⟨'[', _, dumps_identity i, by decide⟩) a b
    (',' :: (Json.quote false "version" ++ [':', '1', '\x7d']))
      (',' :: (Json.quote false "version" ++ [':', '1', '\x7d']))
  apply And.left
  apply hread
  simpa using htext

/-! ## The loop -/

section

variable {M : Type} {h : Host M} (w : Wanted) (recent : List Nat)

/-- The state after the rows of `messages`, from position `i` on. -/
def feedAll (h : Host M) (s : PrefixState) (i : Nat) (messages : List M) : PrefixState :=
  (messages.zipIdx i).foldl (fun s p => s.feed h w recent p.1 p.2) s

theorem feedAll_cons (s : PrefixState) (i : Nat) (m : M) (messages : List M) :
    feedAll w recent h s i (m :: messages) = feedAll w recent h (s.feed h w recent m i) (i + 1) messages := rfl

theorem lookup_prefixEntries_le (ns : ProofNamespace) (messages : List M) : ∀ (s : PrefixState) (i k : Nat), k ≤ i →
    (prefixEntries h w recent ns s i messages).lookup k = none := by
  induction messages with
  | nil => exact fun _ _ _ _ => rfl
  | cons m messages ih =>
    intro s i k hk
    rw [prefixEntries]
    have hlater := ih (s.feed h w recent m i) (i + 1) k (by omega)
    split
    · rw [List.lookup_cons, beq_false_of_ne (by omega)]
      exact hlater
    · exact hlater

/-- The entry at a cut is the state there, closed, when it is eligible. -/
theorem lookup_prefixEntries (ns : ProofNamespace) (messages : List M) :
    ∀ (s : PrefixState) (i k : Nat), k < messages.length →
    (prefixEntries h w recent ns s i messages).lookup (i + 1 + k) =
      if (feedAll w recent h s i (messages.take (k + 1))).eligible w ns then
        some (feedAll w recent h s i (messages.take (k + 1))).closed
      else none := by
  induction messages with
  | nil => exact fun _ _ _ hk => absurd hk (Nat.not_lt_zero _)
  | cons m messages ih =>
    intro s i k hk
    rw [prefixEntries, List.take_succ_cons, feedAll_cons]
    cases k with
    | zero =>
      have hlater := lookup_prefixEntries_le (h := h) w recent ns messages (s.feed h w recent m i)
        (i + 1) (i + 1) (le_refl _)
      split
      · next heligible => simp [feedAll, heligible]
      · next heligible =>
        simp only [Nat.add_zero, List.take_zero]
        rw [hlater]
        simp [feedAll, heligible]
    | succ k =>
      have hnext := ih (s.feed h w recent m i) (i + 1) k (by simpa using hk)
      rw [show i + 1 + (k + 1) = i + 1 + 1 + k by omega]
      split
      · rw [List.lookup_cons, beq_false_of_ne (by omega)]
        exact hnext
      · exact hnext

theorem feedAll_concat (s : PrefixState) (messages : List M) (m : M) :
    feedAll w recent h s 0 (messages ++ [m]) = (feedAll w recent h s 0 messages).feed h w recent m messages.length := by
  simp [feedAll, List.zipIdx_append]

theorem identitiesWith_concat (messages : List M) (m : M) : identitiesWith h recent (messages ++ [m]) =
    identitiesWith h recent messages ++ [identityAt h recent m messages.length] := by
  simp [identitiesWith, List.zipIdx_append]

theorem length_identitiesWith (messages : List M) : (identitiesWith h recent messages).length = messages.length := by
  simp [identitiesWith]

/-- After some rows the loop has fed their items, and its flags speak of them. -/
theorem feedAll_start (messages : List M) : feedAll w recent h PrefixState.start 0 messages =
    { fed := encode envelopeOpen ++ encode ([','].intercalate ((identitiesWith h recent messages).map itemText))
      hasLossyIdentity := w.nativeRecovery && (identitiesWith h recent messages).any hasLossyRedactedIdentity
      hasLcmSystemNote := (w.compactedActive || w.sessionEnd) && messages.any (isLcmSystemNote h)
      hasGeneratedSummary := (w.compactedActive || w.sessionEnd) && messages.any (isGeneratedSummary h) } := by
  induction messages using List.reverseRecOn with
  | nil =>
    have hopen : PrefixState.start.fed = encode envelopeOpen := rfl
    rw [show identitiesWith h recent [] = [] from rfl, List.map_nil, List.intercalate_nil,
      encode_nil, List.append_nil, ← hopen]
    simp [feedAll, PrefixState.start]
  | append_singleton messages m ih =>
    rw [feedAll_concat, ih, PrefixState.feed, identitiesWith_concat]
    simp only [PrefixState.mk.injEq]
    refine ⟨?_, ?_, ?_, ?_⟩
    · rw [List.map_append, List.map_singleton, Json.intercalate_concat, encode_append, encode_append]
      have hempty : (identitiesWith h recent messages).map itemText = [] ↔ messages = [] := by
        rw [List.map_eq_nil_iff, ← List.length_eq_zero_iff, length_identitiesWith, List.length_eq_zero_iff]
      cases messages with
      | nil => simp [identitiesWith, itemText]
      | cons a messages =>
        rw [if_pos (by simp), if_neg (by rw [hempty]; simp)]
        simp only [itemText, List.append_assoc]
        rfl
    · rw [List.any_append, Bool.and_or_distrib_left]
      simp
    · rw [List.any_append, Bool.and_or_distrib_left]
      simp
    · rw [List.any_append, Bool.and_or_distrib_left]
      simp

end

/-! ## One snapshot, with the protected positions as a parameter -/

section

variable {M : Type} (h : Host M)

/-- The bytes of a snapshot when `recent` are the positions that the salvage cannot clear. -/
def snapshotBytesWith (recent : List Nat) : ProofNamespace → List M → Option (List UInt8)
  | .nativeRecovery, messages =>
    if messages = [] ∨ (identitiesWith h recent messages).any hasLossyRedactedIdentity then none
    else some (snapshotBytes (identitiesWith h recent messages))
  | .compactedActive, messages =>
    if ¬ messages.any (isGeneratedSummary h) ∨ ¬ messages.any (isLcmSystemNote h) then none
    else some (snapshotBytes (identitiesWith h recent messages))
  | .sessionEnd, messages =>
    if ¬ messages.any (isGeneratedSummary h) then none else some (snapshotBytes (identitiesWith h recent messages))

theorem singleSnapshotBytes_eq (ns : ProofNamespace) (messages : List M) :
    singleSnapshotBytes h ns messages = snapshotBytesWith h (salvageProtectedPositions h messages) ns messages := by
  cases ns with
  | nativeRecovery =>
    simp only [singleSnapshotBytes, nativeRecoverySnapshotBytes, snapshotBytesWith]
    by_cases hempty : messages = []
    · simp [hempty]
    · simp [hempty]
  | compactedActive => simp [singleSnapshotBytes, replaySnapshotBytes, snapshotBytesWith]
  | sessionEnd => simp [singleSnapshotBytes, replaySnapshotBytes, snapshotBytesWith]

/-- An entry of the index is that of the prefix, with the positions protected in the whole list. -/
theorem lookup_replaySnapshotPrefixBytes {w : Wanted} {ns : ProofNamespace} (hw : w.has ns = true)
    {messages : List M} {k : Nat}
    (hk : k ≤ messages.length) : (replaySnapshotPrefixBytes h w ns messages).lookup k =
      snapshotBytesWith h (salvageProtectedPositions h messages) ns (messages.take k) := by
  unfold replaySnapshotPrefixBytes
  cases k with
  | zero =>
    rw [lookup_prefixEntries_le _ _ _ _ _ _ _ (le_refl 0)]
    cases ns <;> simp [snapshotBytesWith]
  | succ k =>
    have hentry := lookup_prefixEntries (h := h) w (salvageProtectedPositions h messages) ns
      messages PrefixState.start 0 k hk
    rw [Nat.zero_add, Nat.add_comm 1 k] at hentry
    rw [hentry, feedAll_start]
    have hclosed : ∀ l, encode envelopeOpen ++ encode ([','].intercalate (l.map itemText)) ++ encode envelopeClose =
        snapshotBytes l := fun l => (snapshotBytes_eq l).symm
    have hnonempty : messages.take (k + 1) ≠ [] := by
      rw [Ne, List.take_eq_nil_iff]
      rintro (hzero | hempty)
      · omega
      · simp [hempty] at hk
    unfold PrefixState.closed
    simp only [show "],\"version\":1\x7d".toList = envelopeClose from rfl, hclosed]
    cases ns with
    | nativeRecovery =>
      have hflag : w.nativeRecovery = true := hw
      cases hlossy : (identitiesWith h (salvageProtectedPositions h messages) (messages.take (k + 1))).any
          hasLossyRedactedIdentity <;>
        simp [PrefixState.eligible, snapshotBytesWith, hflag, hlossy, hnonempty]
    | compactedActive =>
      have hflag : w.compactedActive = true := hw
      cases hsummary : (messages.take (k + 1)).any (isGeneratedSummary h) <;>
        cases hnote : (messages.take (k + 1)).any (isLcmSystemNote h) <;>
          simp [PrefixState.eligible, snapshotBytesWith, hflag, hsummary, hnote]
    | sessionEnd =>
      have hflag : w.sessionEnd = true := hw
      cases hsummary : (messages.take (k + 1)).any (isGeneratedSummary h) <;>
        simp [PrefixState.eligible, snapshotBytesWith, hflag, hsummary]

/-! ## The newest tool rows of a prefix -/

/-- A row protected in the whole list is protected in every prefix that holds it. -/
theorem protected_take {messages : List M} {i k : Nat} (hi : i < k)
    (hprotected : i ∈ salvageProtectedPositions h messages) :
    i ∈ salvageProtectedPositions h (messages.take k) := by
  have hsplit : messages.zipIdx = (messages.take k).zipIdx ++ (messages.drop k).zipIdx (messages.take k).length := by
    nth_rewrite 1 [← List.take_append_drop k messages]
    rw [List.zipIdx_append, Nat.zero_add]
  unfold salvageProtectedPositions at hprotected ⊢
  rw [hsplit, List.filter_append, List.map_append] at hprotected
  generalize hbefore : ((messages.take k).zipIdx.filter fun p => h.role p.1 = "tool").map Prod.snd =
    before at hprotected ⊢
  generalize hafter : (((messages.drop k).zipIdx (messages.take k).length).filter fun p => h.role
    p.1 = "tool").map Prod.snd =
    after at hprotected
  have hlate : i ∉ after := by
    intro hin
    rw [← hafter, List.mem_map] at hin
    obtain ⟨p, hp, rfl⟩ := hin
    have hpos := List.le_snd_of_mem_zipIdx (List.mem_of_mem_filter hp)
    rw [List.length_take] at hpos
    have hlength := List.snd_lt_of_mem_zipIdx (List.mem_of_mem_filter hp)
    rw [List.length_drop, List.length_take] at hlength
    omega
  dsimp only at hprotected ⊢
  rw [List.drop_append, List.mem_append] at hprotected
  cases hprotected with
  | inl hin =>
    rw [List.length_append] at hin
    exact (List.drop_sublist_drop_left before (by omega)).subset hin
  | inr hin => exact absurd (List.mem_of_mem_drop hin) hlate

/-- No row of the first `k` is a newest tool row there but not in the whole list, unless the alias of a pruned
row changes nothing for it. -/
def AliasSettled (messages : List M) (k : Nat) : Prop :=
  ∀ i m, i < k → messages[i]? = some m → i ∈ salvageProtectedPositions h (messages.take k) →
    i ∉ salvageProtectedPositions h messages → h.replayIdentity m true = h.replayIdentity m false

theorem identities_eq_iff {messages : List M} {k : Nat} :
    identitiesWith h (salvageProtectedPositions h messages) (messages.take k) =
        identitiesWith h (salvageProtectedPositions h (messages.take k)) (messages.take k) ↔
        AliasSettled h messages k := by
  have hrow : ∀ i, (messages.take k)[i]? = if i < k then messages[i]? else none := fun i => List.getElem?_take
  constructor
  · intro heq i m hi hm hin hout
    have hget := congrArg (fun l => l[i]?) heq
    simp only [identitiesWith, List.getElem?_map, List.getElem?_zipIdx, hrow, if_pos hi, hm,
      Option.map_some, identityAt, hin,
      hout, Nat.zero_add] at hget
    simpa using hget
  · intro hsettled
    apply List.ext_getElem?
    intro i
    simp only [identitiesWith, List.getElem?_map, List.getElem?_zipIdx, hrow, Nat.zero_add]
    split
    · next hi =>
      cases hm : messages[i]? with
      | none => rfl
      | some m =>
        simp only [Option.map_some, identityAt, Option.some.injEq]
        by_cases hout : i ∈ salvageProtectedPositions h messages
        · simp [hout, protected_take h hi hout]
        · by_cases hin : i ∈ salvageProtectedPositions h (messages.take k)
          · simpa [hin, hout] using hsettled i m hi hm hin hout
          · simp [hin, hout]
    · rfl

/-- Neither reading of the first `k` rows is a snapshot: there is no summary in them, and a lossy redaction in both. -/
def NeverSnapshot (messages : List M) (k : Nat) : Prop :=
  (messages.take k).any (isGeneratedSummary h) = false ∧
    (identitiesWith h (salvageProtectedPositions h messages) (messages.take k)).any hasLossyRedactedIdentity = true ∧
    (identitiesWith h (salvageProtectedPositions h (messages.take k)) (messages.take k)).any
      hasLossyRedactedIdentity = true

/-- The index agrees with the single snapshots at every cut exactly when no tool row changes its identity for
leaving the newest ones, except in prefixes that are no snapshot either way. -/
theorem prefixBytes_eq_single_iff (messages : List M) :
    (∀ (w : Wanted) (ns : ProofNamespace), w.has ns = true → ∀ k ≤ messages.length,
      (replaySnapshotPrefixBytes h w ns messages).lookup k = singleSnapshotBytes h ns (messages.take k)) ↔
    ∀ k ≤ messages.length, AliasSettled h messages k ∨ NeverSnapshot h messages k := by
  constructor
  · intro hagree k hk
    by_cases hsettled : AliasSettled h messages k
    · exact .inl hsettled
    · right
      rw [← identities_eq_iff] at hsettled
      have hcompare : ∀ ns, snapshotBytesWith h (salvageProtectedPositions h messages) ns (messages.take k) =
          snapshotBytesWith h (salvageProtectedPositions h (messages.take k)) ns (messages.take k) := by
        intro ns
        have hall : Wanted.has ⟨true, true, true⟩ ns = true := by cases ns <;> rfl
        rw [← lookup_replaySnapshotPrefixBytes h hall hk, ← singleSnapshotBytes_eq]
        exact hagree _ ns hall k hk
      have hended := hcompare .sessionEnd
      have hnative := hcompare .nativeRecovery
      have hnonempty : messages.take k ≠ [] := by
        intro hempty
        exact hsettled (by rw [hempty]; rfl)
      simp only [snapshotBytesWith, hnonempty, false_or] at hended hnative
      refine ⟨?_, ?_, ?_⟩
      · cases hsummary : (messages.take k).any (isGeneratedSummary h) with
        | false => rfl
        | true =>
          rw [hsummary] at hended
          simp only [not_true, if_false, Option.some.injEq] at hended
          exact absurd (snapshotBytes_inj hended) hsettled
      · by_contra hclean
        rw [if_neg hclean] at hnative
        split at hnative
        · cases hnative
        · exact hsettled (snapshotBytes_inj (Option.some.inj hnative))
      · by_contra hclean
        rw [if_neg hclean] at hnative
        split at hnative
        · cases hnative
        · exact hsettled (snapshotBytes_inj (Option.some.inj hnative))
  · intro hcond w ns hw k hk
    rw [lookup_replaySnapshotPrefixBytes h hw hk, singleSnapshotBytes_eq]
    cases hcond k hk with
    | inl hsettled =>
      rw [← identities_eq_iff] at hsettled
      cases ns <;> simp only [snapshotBytesWith, hsettled]
    | inr hnever =>
      obtain ⟨hsummary, hlossy, hlossy'⟩ := hnever
      cases ns <;> simp [snapshotBytesWith, hsummary, hlossy, hlossy']

end

/-! ## A pruned row that leaves the newest two -/

/-- A tool result, or with an empty id any other row. -/
structure SampleRow where
  role : String
  content : String
  toolCallId : String
deriving DecidableEq, Repr

/-- `_HERMES_PRUNED_TOOL_PLACEHOLDER`. -/
def prunedToolPlaceholder : String := "[Old tool output cleared to save context space]"

/-- A host whose store holds one long output of the call `c1`; a pruned row of that call stands for it. -/
def prunedHost : Host SampleRow where
  role := SampleRow.role
  content := SampleRow.content
  replayIdentity m aliased :=
    { role := m.role
      content :=
        if aliased ∧ m.content = prunedToolPlaceholder ∧ m.toolCallId = "c1" then String.ofList (List.replicate 201 'x')
        else m.content
      toolCallId := m.toolCallId
      toolCalls := ""
      toolName := "" }

/-- The newest result was cleared before two more arrived. -/
def prunedRows : List SampleRow :=
  [⟨"tool", prunedToolPlaceholder, "c1"⟩, ⟨"tool", "b", "c2"⟩, ⟨"tool", "c", "c3"⟩]

/-- The cleared row is protected in its prefix, not in the whole list. -/
theorem prefixBytes_pruned_differs : ¬ ∀ (w : Wanted) (ns : ProofNamespace), w.has ns = true → ∀ k ≤ prunedRows.length,
    (replaySnapshotPrefixBytes prunedHost w ns prunedRows).lookup k =
      singleSnapshotBytes prunedHost ns (prunedRows.take k) := by
  intro hagree
  have hfirst := hagree ⟨true, true, true⟩ .nativeRecovery rfl 1 (by decide)
  revert hfirst
  decide +kernel

end Reconcile
