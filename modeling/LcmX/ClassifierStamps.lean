import LcmX.ClassifierOrder

/-!
# Stamps as witnesses

A stamped row is a replay of an occurrence that has its stamp, but for one path.
A stamp disagrees when it is neither recorded for the binding nor its
`messages.observed_at`, and rank 3 asks that some stamp is recorded: a row of a
tool segment that carries the time of `observed_at` passes both.
-/
namespace Classifier

open IngestLedger Fallible

/-! ## Where a replay comes from -/

namespace Context

variable {c : Context} {p q : Pass}

/-- The licences of the three phases that accept. -/
inductive Origin (c : Context) (i : Nat) : Target → Option Evidence → Prop where
  | run {t : Target} {ev : Option Evidence} (h : RunLicence c i t ev) : Origin c i t ev
  | strong {t : Target} {ev : Option Evidence} (h : StrongLicence c i t ev) : Origin c i t ev
  | weak {p : Pass} {row : IncomingRow} {o : Candidate} (hrow : row ∈ c.view) (hindex : i = row.index)
      (hoffered : Offered c p row o) : Origin c i (.occ o.binding.occId) o.evidence

variable {i : Nat} {ev : Option Evidence}

theorem UnitLicence.origin {segments : Bool} {options : List (Nat × List Candidate)}
    (hoptions : Options c segments p options)
    {units : List MatchUnit} {t : Target} (h : UnitLicence units options i t ev) :
    Origin c i t ev := by
  obtain ⟨u, cand, -, -, ⟨l, hl, ho⟩, rfl, rfl⟩ := h
  obtain ⟨row, hrow, hindex, -, -, hoffered⟩ := hoptions _ _ hl
  exact .weak hrow hindex (hoffered cand ho)

end Context

/-! ## Classifications -/

end Classifier
