import AvroColumns.Proofs.Outcome
import AvroColumns.Step.Worker

namespace AvroColumns.Step

/-- A worker taken from a step, with the variables that it was last bound to, if it was. -/
inductive Serves (s : Step) : Option Variables → Worker → Prop
  | taken {w} : s.worker = .ok w → Serves s none w
  | bound {last w} (vars : Variables) : Serves s last w → Serves s (some vars) (s.bindWorker w vars)

variable {s : Step} {w : Worker} {last : Option Variables} {passed : Row} {v : Datum} {d : Document}
  {isDefault : Bool}

theorem worker_eq_ok (h : s.worker = .ok w) :
    w = ⟨none, s.plan.groups.head?.map fun group => ⟨group, none⟩⟩ := by
  rw [worker] at h
  cases hg : s.plan.groups.head? with
  | none =>
    rw [hg] at h
    cases h
    rfl
  | some group =>
    simp only [hg, Outcome.map_eq_ok_iff, Outcome.mapError_eq_ok_iff] at h
    obtain ⟨e, he, rfl⟩ := h
    obtain ⟨-, -, he⟩ := Outcome.bind_eq_ok_iff.mp he
    cases he
    rfl

theorem Serves.eq (h : s.Serves last w) :
    w = ⟨last.map fun vars => (s.bind vars).plain,
      s.plan.groups.head?.map fun group => ⟨group, last.map group.bind⟩⟩ := by
  induction h with
  | taken hw => exact worker_eq_ok hw
  | bound vars _ ih =>
    subst ih
    rw [bindWorker]
    cases s.plan.groups.head? <;> rfl

theorem Serves.workValue (h : s.Serves last w) :
    s.workValue w passed v d isDefault = s.decodeValue (last.map s.bind) passed v d isDefault := by
  rw [h.eq]
  cases last with
  | none => rfl
  | some vars =>
    simp only [Option.map_some, bind, Step.workValue]
    cases s.plan.groups.head? <;> rfl

end AvroColumns.Step
