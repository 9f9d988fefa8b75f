import LcmX.PayloadStubText

/-!
# Reading stubs back

The readers of stubs take a stub from its first character to its last, with the name of the
file as the only reference, when the name has no character that ends a reference.
-/
namespace PayloadStub

open Regex PyText Ingest

/-! ## The pattern of the readers -/

/-- How a stub begins. -/
def opening (tool : Bool) : Text := if tool then "[Externalized tool output:".toList
    else "[Externalized payload:".toList

theorem run_seq_single {a b : Re} {s u : State} (h : run a s = [u]) : run (.seq a b) s = run b u := by
  rw [run, h, List.flatMap_singleton]

theorem run_char_self (c : Char) (behind rest : Text) :
    run (.char (· = c)) ⟨behind, c :: rest, []⟩ = [⟨c :: behind, rest, []⟩] := by
  simp [run, State.next]

theorem run_or_left {w v behind rest : Text} (h : ¬ v <+: w ++ rest) :
    run (.or (lit w) (lit v)) ⟨behind, w ++ rest, []⟩ = [⟨w.reverse ++ behind, rest, []⟩] := by
  rw [run, run_lit_append, run_lit_eq_nil h, List.append_nil]

theorem run_or_right {w v behind rest : Text} (h : ¬ w <+: v ++ rest) :
    run (.or (lit w) (lit v)) ⟨behind, v ++ rest, []⟩ = [⟨v.reverse ++ behind, rest, []⟩] := by
  rw [run, run_lit_append, run_lit_eq_nil h, List.nil_append]

theorem run_opening (tool : Bool) (rest : Text) : run externalizedRefRe ⟨[], opening tool ++ rest, []⟩ =
    (run (.rep true 0 none (.char (· ≠ '\n'))) ⟨(opening tool).reverse, rest, []⟩).flatMap (run referenceRe) := by
  have hgc : ∀ more : Text, ¬ "GC'd externalized".toList <+: "Externalized".toList ++ more := fun more h => by simp at h
  cases tool with
  | true =>
    have htext : opening true ++ rest =
        '[' :: ("Externalized".toList ++ (' ' :: ("tool output".toList ++ (':' :: rest)))) := by simp [opening]
    have hpayload : ¬ "payload".toList <+: "tool output".toList ++ (':' :: rest) := by simp
    have hbehind : (opening true).reverse =
        ':' :: ("tool output".toList.reverse ++ (' ' :: ("Externalized".toList.reverse ++ ['[']))) := by
      simp [opening]
    rw [htext, hbehind, externalizedRefRe, run_seq_single (run_char_self _ _ _), run_seq_single (run_or_left (hgc _)),
      run_seq_single (run_char_self _ _ _), run_seq_single (run_or_left hpayload),
        run_seq_single (run_char_self _ _ _), run]
  | false =>
    have htext : opening false ++ rest =
        '[' :: ("Externalized".toList ++ (' ' :: ("payload".toList ++ (':' :: rest)))) := by simp [opening]
    have htool : ¬ "tool output".toList <+: "payload".toList ++ (':' :: rest) := by simp
    have hbehind : (opening false).reverse =
        ':' :: ("payload".toList.reverse ++ (' ' :: ("Externalized".toList.reverse ++ ['[']))) := by
      simp [opening]
    rw [htext, hbehind, externalizedRefRe, run_seq_single (run_char_self _ _ _), run_seq_single (run_or_left (hgc _)),
      run_seq_single (run_char_self _ _ _), run_seq_single (run_or_right htool),
        run_seq_single (run_char_self _ _ _), run]

/-- A stub whose body has no reference before its own. -/
def stubText (tool : Bool) (body ref : Text) : Text :=
  opening tool ++ (body ++ (';' :: ' ' :: ("ref=".toList ++ (ref ++ [']']))))

section

variable {tool : Bool} {body ref : Text}

/-- The state behind a stub. -/
def pastStub (tool : Bool) (body ref : Text) : State where
  behind := (stubText tool body ref).reverse
  ahead := []
  groups := [(1, (opening tool ++ body).length + 6, (opening tool ++ body).length + 6 + ref.length)]

theorem match_stub (hplain : ∀ c ∈ body, c ≠ '\n') (hbody : Separated body)
    (href : ∀ c ∈ ref, isReferenceChar c = true) (hne : ref ≠ []) :
    matchAt externalizedRefRe [] (stubText tool body ref) = some (pastStub tool body ref) := by
  have hfirst := run_lazy_first body (fun c hc => decide_eq_true (hplain c hc))
    (fun u v hu hv => run_reference_body hbody hu hv)
    (run_reference href hne (body.reverse ++ (opening tool).reverse) [])
  rw [matchAt, stubText, run_opening]
  refine hfirst.trans (congrArg some ?_)
  rw [pastStub, stubText]
  simp
  omega

theorem stubText_cons (tool : Bool) (body ref : Text) : ∃ w, stubText tool body ref = '[' :: (w ++ [']']) := by
  cases tool with
  | true => exact ⟨"Externalized tool output:".toList ++
        (body ++ (';' :: ' ' :: ("ref=".toList ++ ref))), by simp [stubText, opening]⟩
  | false => exact ⟨"Externalized payload:".toList ++
        (body ++ (';' :: ' ' :: ("ref=".toList ++ ref))), by simp [stubText, opening]⟩

theorem found_stub (tool : Bool) (body ref : Text) :
    (found ⟨[], stubText tool body ref, []⟩ (pastStub tool body ref)).group 1 = some ref := by
  have htext : (pastStub tool body ref).text =
      (opening tool ++ body ++ (';' :: ' ' :: "ref=".toList)) ++ (ref ++ [']']) := by
    simp [State.text, pastStub, stubText]
  have hstart : (opening tool ++ body).length + 6 = (opening tool ++ body ++ (';' :: ' ' :: "ref=".toList)).length := by
    simp
    omega
  have hgroups : (pastStub tool body ref).groups =
      [(1, (opening tool ++ body).length + 6, (opening tool ++ body).length + 6 + ref.length)] := rfl
  simp only [Match.group, found, hgroups, List.map_cons, List.find?_cons_of_pos, decide_true, Option.map_some]
  rw [htext, hstart, List.drop_left, Nat.add_sub_cancel_left, List.take_left]

theorem pieces_nil (a : Re) (fuel : Nat) (behind : Text) : pieces a fuel behind [] = [] := by
  cases fuel with
  | zero => rfl
  | succ fuel =>
    have hnone : (matchAt a behind []).filter (fun t => t.ahead.length < ([] : Text).length) = none := by simp
    rw [pieces_succ, hnone]

/-- The stub is the only match in it. -/
theorem finditer_stub (hplain : ∀ c ∈ body, c ≠ '\n') (hbody : Separated body)
    (href : ∀ c ∈ ref, isReferenceChar c = true) (hne : ref ≠ []) :
    finditer externalizedRefRe (stubText tool body ref) =
    [found ⟨[], stubText tool body ref, []⟩ (pastStub tool body ref)] := by
  obtain ⟨w, hw⟩ := stubText_cons tool body ref
  have hlen : (stubText tool body ref).length = (w ++ [']']).length + 1 := by rw [hw, List.length_cons]
  have hsome : (matchAt externalizedRefRe [] (stubText tool body ref)).filter
    (fun t => t.ahead.length < (stubText tool body ref).length) =
      some (pastStub tool body ref) := by
    rw [match_stub hplain hbody href hne, Option.filter_eq_some_iff]
    refine ⟨rfl, decide_eq_true ?_⟩
    rw [hlen]
    exact Nat.succ_pos _
  rw [finditer, cut, hlen, pieces_succ, hsome]
  simp only [pastStub, pieces_nil]
  rfl

theorem strip_bracketed (w : Text) : strip ('[' :: (w ++ [']'])) = '[' :: (w ++ [']']) := by
  have hfront : ('[' :: (w ++ [']'])).dropWhile isSpace = '[' :: (w ++ [']']) := List.dropWhile_cons_of_neg (by decide)
  rw [strip, stripBy, hfront, ← List.cons_append, List.rdropWhile_concat_neg _ _ _ (by decide)]

theorem isExternalizedPlaceholder_stub (hplain : ∀ c ∈ body, c ≠ '\n') (hbody : Separated body)
    (href : ∀ c ∈ ref, isReferenceChar c = true)
    (hne : ref ≠ []) (hshort : (stubText tool body ref).length ≤ 512) :
      isExternalizedPlaceholder (stubText tool body ref) = true := by
  obtain ⟨w, hw⟩ := stubText_cons tool body ref
  have hstrip : strip (stubText tool body ref) = stubText tool body ref := by rw [hw, strip_bracketed]
  have hfirst : matchAt externalizedRefRe []
      (stubText tool body ref) = some (pastStub tool body ref) := match_stub hplain hbody href hne
  have hmatch := List.mem_of_mem_head? hfirst
  have hfull : (fullmatch externalizedRefRe [] (stubText tool body ref)).isSome := by
    rw [fullmatch, Option.isSome_map, List.find?_isSome]
    exact ⟨_, hmatch, decide_eq_true rfl⟩
  have hnonempty : stubText tool body ref ≠ [] := by
    rw [hw]
    exact List.cons_ne_nil _ _
  simp [isExternalizedPlaceholder, hstrip, hnonempty, hshort, hfull]

theorem splitOn_of_not_mem {ref : Text} (h : '/' ∉ ref) : ref.splitOn '/' = [ref] := by
  refine List.splitOnP_eq_singleton fun c hc => ?_
  have hne : c ≠ '/' := fun he => h (he ▸ hc)
  simpa using hne

theorem pathName_of_not_mem {ref : Text} (hslash : '/' ∉ ref) (hlong : 2 ≤ ref.length) : pathName ref = ref := by
  have hne : ref ≠ [] := by
    rintro rfl
    simp at hlong
  have hdot : ref ≠ ['.'] := by
    rintro rfl
    simp at hlong
  simp [pathName, splitOn_of_not_mem hslash, hne, hdot]

theorem extract_stub (hplain : ∀ c ∈ body, c ≠ '\n') (hbody : Separated body)
    (href : ∀ c ∈ ref, isReadable c = true) (hslash : '/' ∉ ref)
    (hlong : 2 ≤ ref.length) : extractExternalizedRefs (stubText tool body ref) = [ref] := by
  have hchars : ∀ c ∈ ref, isReferenceChar c = true ∧ c ≠ '\\' := fun c hc => by simpa [isReadable] using href c hc
  have hne : ref ≠ [] := by
    rintro rfl
    simp at hlong
  have hback : '\\' ∉ ref := fun h => (hchars _ h).2 rfl
  have hstrip : strip ref = ref := by
    have hspace : ∀ c ∈ ref, isSpace c = false := by
      intro c hc
      have hchar := (hchars c hc).1
      simp only [isReferenceChar, Bool.and_eq_true, Bool.not_eq_true'] at hchar
      exact hchar.2
    have hfront : ref.dropWhile isSpace = ref := by
      cases ref with
      | nil => rfl
      | cons c w => exact List.dropWhile_cons_of_neg (by simp [hspace c List.mem_cons_self])
    rw [strip, stripBy, hfront, List.rdropWhile_eq_self_iff]
    intro hnonempty
    simp [hspace _ (List.getLast_mem hnonempty)]
  obtain ⟨w, hw⟩ := stubText_cons tool body ref
  have hnonempty : stubText tool body ref ≠ [] := by
    rw [hw]
    exact List.cons_ne_nil _ _
  rw [extractExternalizedRefs, if_neg hnonempty, finditer_stub hplain hbody (fun c hc => (hchars c hc).1) hne]
  simp only [collectRefs, found_stub, Option.getD_some, hstrip, pathName_of_not_mem hslash hlong]
  simp [hne, hslash, hback]

end

/-! ## What a reference can hold -/

theorem collectRefs_mem {ref : Text} : ∀ {ms : List Match} {refs : List Text}, ref ∈ collectRefs refs ms →
    ref ∈ refs ∨ '\\' ∉ ref ∧ ∃ m ∈ ms, ref = strip ((m.group 1).getD []) := by
  intro ms
  induction ms with
  | nil => exact fun h => .inl h
  | cons m rest ih =>
    intro refs h
    rw [collectRefs] at h
    split at h
    · rcases ih h with hold | ⟨hback, m', hm', he⟩
      · exact .inl hold
      · exact .inr ⟨hback, m', List.mem_cons_of_mem _ hm', he⟩
    · rename_i hkeep
      simp only [not_or] at hkeep
      rcases ih h with hold | ⟨hback, m', hm', he⟩
      · rcases List.mem_append.mp hold with hold | hnew
        · exact .inl hold
        · obtain rfl := List.mem_singleton.mp hnew
          exact .inr ⟨hkeep.2.2.1, m, List.mem_cons_self, rfl⟩
      · exact .inr ⟨hback, m', List.mem_cons_of_mem _ hm', he⟩

/-- The group of a match has the characters of a reference. -/
theorem group_chars {s t : State} (hs : s.groups = []) (h : t ∈ run externalizedRefRe s) :
    ∀ c ∈ ((found s t).group 1).getD [], isReferenceChar c = true := by
  -- the head of the pattern, up to the sign before the group, captures nothing
  have hhead : Yields (.or (lit "Externalized".toList) (lit "GC'd externalized".toList)) fun _ => True :=
    ((Yields.lit _).imp fun _ _ => trivial).or ((Yields.lit _).imp fun _ _ => trivial)
  have hkind : Yields (.or (lit "tool output".toList) (lit "payload".toList)) fun _ => True :=
    ((Yields.lit _).imp fun _ _ => trivial).or ((Yields.lit _).imp fun _ _ => trivial)
  simp only [externalizedRefRe, referenceRe] at h
  obtain ⟨s₁, h₁, h⟩ := List.mem_flatMap.mp h
  obtain ⟨s₂, h₂, h⟩ := List.mem_flatMap.mp h
  obtain ⟨s₃, h₃, h⟩ := List.mem_flatMap.mp h
  obtain ⟨s₄, h₄, h⟩ := List.mem_flatMap.mp h
  obtain ⟨s₅, h₅, h⟩ := List.mem_flatMap.mp h
  obtain ⟨s₆, h₆, h⟩ := List.mem_flatMap.mp h
  obtain ⟨s₇, h₇, h⟩ := List.mem_flatMap.mp h
  obtain ⟨s₈, h₈, h⟩ := List.mem_flatMap.mp h
  obtain ⟨s₉, h₉, h⟩ := List.mem_flatMap.mp h
  obtain ⟨s₁₀, h₁₀, h₁₁⟩ := List.mem_flatMap.mp h
  obtain ⟨-, -, g₁, -⟩ := Yields.char _ h₁
  obtain ⟨-, -, g₂, -⟩ := hhead h₂
  obtain ⟨-, -, g₃, -⟩ := Yields.char _ h₃
  obtain ⟨-, -, g₄, -⟩ := hkind h₄
  obtain ⟨-, -, g₅, -⟩ := Yields.char _ h₅
  obtain ⟨-, -, g₆, -⟩ := Yields.rep _ _ _ _ h₆
  obtain ⟨-, -, g₇, -⟩ := Yields.char _ h₇
  obtain ⟨-, -, g₈, -⟩ := Yields.rep _ _ _ _ h₈
  obtain ⟨-, -, g₉, -⟩ := Yields.lit _ h₉
  have hempty : s₉.groups = [] := by rw [g₉, g₈, g₇, g₆, g₅, g₄, g₃, g₂, g₁, hs]
  obtain ⟨u, hu, rfl⟩ := mem_run_group h₁₀
  obtain ⟨w, hw, gu, hall, -⟩ := Yields.rep _ _ _ _ hu
  obtain ⟨v, hv, gv, -⟩ := Yields.char _ h₁₁
  have hgroups : t.groups = [(1, s₉.pos, u.pos)] := by rw [gv, gu, hempty]
  have htext : t.text = s₉.text := hv.text_eq.trans hw.text_eq
  have hgroup : ((found s t).group 1).getD [] = w := by
    simp only [Match.group, found, hgroups, List.map_cons, List.find?_cons_of_pos, decide_true,
      Option.map_some, Option.getD_some]
    rw [htext, hw.slice_eq]
  rw [hgroup]
  exact hall

theorem mem_strip {text : Text} {c : Char} (h : c ∈ strip text) : c ∈ text := mem_of_mem_stripBy h

/-- A reference that is read from a text has readable characters. -/
theorem extracted_readable {text ref : Text} (h : ref ∈ extractExternalizedRefs text) :
    ∀ c ∈ ref, isReadable c = true := by
  rw [extractExternalizedRefs] at h
  split at h
  · cases h
  · rcases collectRefs_mem h with hnone | ⟨hback, m, hm, rfl⟩
    · cases hnone
    · obtain ⟨piece, hpiece, hright⟩ := List.mem_filterMap.mp hm
      obtain rfl : piece = .inr m := by
        cases piece with
        | inl c => cases hright
        | inr m' => rw [Option.some.inj hright]
      obtain ⟨s, t, ht, hs, rfl⟩ := mem_pieces hpiece
      intro c hc
      have hne : c ≠ '\\' := fun he => hback (he ▸ hc)
      simp [isReadable, group_chars hs ht c (mem_strip hc), hne]

end PayloadStub
