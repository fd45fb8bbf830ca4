import Mathlib.Data.List.Forall2

namespace AvroColumns.Outcome

variable {ε ε' α β γ : Type}

@[simp] theorem ok_bind (a : α) (f : α → Except ε β) : (Except.ok a >>= f) = f a := rfl

@[simp] theorem error_bind (e : ε) (f : α → Except ε β) : (Except.error e >>= f) = .error e := rfl

@[simp] theorem pure_eq_ok (a : α) : (pure a : Except ε α) = .ok a := rfl

@[simp] theorem throw_eq_error (e : ε) : (throw e : Except ε α) = .error e := rfl

@[simp] theorem map_ok (f : α → β) (a : α) : (Except.ok a : Except ε α).map f = .ok (f a) := rfl

@[simp] theorem map_error (f : α → β) (e : ε) :
    (Except.error e : Except ε α).map f = .error e := rfl

@[simp] theorem mapError_ok (f : ε → ε') (a : α) :
    (Except.ok a : Except ε α).mapError f = .ok a := rfl

@[simp] theorem mapError_error (f : ε → ε') (e : ε) :
    (Except.error e : Except ε α).mapError f = .error (f e) := rfl

@[simp] theorem toOption_ok (a : α) : (Except.ok a : Except ε α).toOption = some a := rfl

@[simp] theorem toOption_error (e : ε) : (Except.error e : Except ε α).toOption = none := rfl

theorem bind_eq_ok_iff {x : Except ε α} {f : α → Except ε β} {b : β} :
    (x >>= f) = .ok b ↔ ∃ a, x = .ok a ∧ f a = .ok b := by
  cases x <;> simp

theorem bind_eq_error_iff {x : Except ε α} {f : α → Except ε β} {e : ε} :
    (x >>= f) = .error e ↔ x = .error e ∨ ∃ a, x = .ok a ∧ f a = .error e := by
  cases x <;> simp

@[simp] theorem map_eq_ok_iff {x : Except ε α} {f : α → β} {b : β} :
    x.map f = .ok b ↔ ∃ a, x = .ok a ∧ f a = b := by
  cases x <;> simp

@[simp] theorem map_eq_error_iff {x : Except ε α} {f : α → β} {e : ε} :
    x.map f = .error e ↔ x = .error e := by
  cases x <;> simp

@[simp] theorem mapError_eq_ok_iff {x : Except ε α} {f : ε → ε'} {a : α} :
    x.mapError f = .ok a ↔ x = .ok a := by
  cases x <;> simp

@[simp] theorem mapError_eq_error_iff {x : Except ε α} {f : ε → ε'} {e' : ε'} :
    x.mapError f = .error e' ↔ ∃ e, x = .error e ∧ f e = e' := by
  cases x <;> simp

@[simp] theorem toOption_eq_some_iff {x : Except ε α} {a : α} :
    x.toOption = some a ↔ x = .ok a := by
  cases x <;> simp

theorem mapM_eq_ok_iff {f : α → Except ε β} {as : List α} {bs : List β} :
    as.mapM f = .ok bs ↔ List.Forall₂ (fun a b => f a = .ok b) as bs := by
  induction as generalizing bs with
  | nil => cases bs <;> simp
  | cons a as ih =>
    rw [List.mapM_cons]
    simp only [bind_eq_ok_iff, ih, pure_eq_ok, Except.ok.injEq]
    constructor
    · rintro ⟨b, hb, bs, hbs, rfl⟩
      exact .cons hb hbs
    · intro h
      cases h with
      | cons hb hbs => exact ⟨_, hb, _, hbs, rfl⟩

theorem length_of_mapM {f : α → Except ε β} {as : List α} {bs : List β}
    (h : as.mapM f = .ok bs) : bs.length = as.length :=
  (mapM_eq_ok_iff.mp h).length_eq.symm

theorem getElem?_of_mapM {f : α → Except ε β} {as : List α} {bs : List β}
    (h : as.mapM f = .ok bs) {i : Nat} {a : α} (ha : as[i]? = some a) :
    ∃ b, bs[i]? = some b ∧ f a = .ok b := by
  replace h := mapM_eq_ok_iff.mp h
  induction h generalizing i with
  | nil => simp at ha
  | cons hb _ ih =>
    cases i with
    | zero =>
      cases ha
      exact ⟨_, rfl, hb⟩
    | succ i => simpa using ih (by simpa using ha)

theorem exists_of_mem_mapM {f : α → Except ε β} {as : List α} {bs : List β}
    (h : as.mapM f = .ok bs) {b : β} (hb : b ∈ bs) : ∃ a ∈ as, f a = .ok b := by
  replace h := mapM_eq_ok_iff.mp h
  induction h with
  | nil => cases hb
  | cons ha _ ih =>
    rcases List.mem_cons.mp hb with rfl | hb
    · exact ⟨_, List.mem_cons_self, ha⟩
    · obtain ⟨a, hm, ha⟩ := ih hb
      exact ⟨a, List.mem_cons_of_mem _ hm, ha⟩

theorem exists_mem_of_mapM {f : α → Except ε β} {as : List α} {bs : List β}
    (h : as.mapM f = .ok bs) {a : α} (ha : a ∈ as) : ∃ b ∈ bs, f a = .ok b := by
  obtain ⟨i, hi⟩ := List.mem_iff_getElem?.mp ha
  obtain ⟨b, hb, hfb⟩ := getElem?_of_mapM h hi
  exact ⟨b, List.mem_of_getElem? hb, hfb⟩

theorem exists_map_of_mapM [Inhabited β] {f : α → Except ε β} {as : List α} {bs : List β}
    (h : as.mapM f = .ok bs) : ∃ g : α → β, bs = as.map g ∧ ∀ a ∈ as, f a = .ok (g a) := by
  obtain ⟨g, hg⟩ : ∃ g : α → β, ∀ a b, f a = .ok b → b = g a := by
    refine ⟨fun a => (f a).toOption.getD default, ?_⟩
    intro a b hb
    simp only [hb]
    rfl
  refine ⟨g, ?_⟩
  replace h := mapM_eq_ok_iff.mp h
  induction h with
  | nil => exact ⟨rfl, nofun⟩
  | cons hb _ ih =>
    rw [List.map_cons, List.forall_mem_cons, ← hg _ _ hb, ← ih.1]
    exact ⟨rfl, hb, ih.2⟩

theorem mapM_eq_error_iff {f : α → Except ε β} {as : List α} {e : ε} :
    as.mapM f = .error e ↔
      ∃ before a after, as = before ++ a :: after ∧ (∀ x ∈ before, ∃ b, f x = .ok b) ∧
        f a = .error e := by
  induction as with
  | nil => simp
  | cons a as ih =>
    rw [List.mapM_cons]
    cases ha : f a with
    | error e' =>
      simp only [error_bind, Except.error.injEq]
      constructor
      · rintro rfl
        exact ⟨[], a, as, rfl, by simp, ha⟩
      · rintro ⟨before, a', after, h, hok, he⟩
        cases before with
        | nil =>
          obtain ⟨rfl, rfl⟩ := List.cons.inj h
          simpa [ha] using he
        | cons x before =>
          obtain ⟨rfl, -⟩ := List.cons.inj h
          obtain ⟨b, hb⟩ := hok a (by simp)
          simp [ha] at hb
    | ok b =>
      have hbind : (as.mapM f >>= fun bs => (pure (b :: bs) : Except ε (List β))) = .error e ↔
          as.mapM f = .error e := by
        cases as.mapM f <;> simp
      simp only [ok_bind, hbind, ih]
      constructor
      · rintro ⟨before, a', after, rfl, hok, he⟩
        exact ⟨a :: before, a', after, rfl, by simpa [ha] using hok, he⟩
      · rintro ⟨before, a', after, h, hok, he⟩
        cases before with
        | nil =>
          obtain ⟨rfl, rfl⟩ := List.cons.inj h
          simp [ha] at he
        | cons x before =>
          obtain ⟨rfl, rfl⟩ := List.cons.inj h
          exact ⟨before, a', after, rfl, fun x hx => hok x (by simp [hx]), he⟩

theorem exists_mapM {f : α → Except ε β} {as : List α} (h : ∀ a ∈ as, ∃ b, f a = .ok b) :
    ∃ bs, as.mapM f = .ok bs := by
  cases hm : as.mapM f with
  | ok bs => exact ⟨bs, rfl⟩
  | error e =>
    obtain ⟨before, a, after, rfl, -, he⟩ := mapM_eq_error_iff.mp hm
    obtain ⟨b, hb⟩ := h a (by simp)
    cases hb.symm.trans he

theorem mapM_cases (f : α → Except ε β) (as : List α) :
    (∃ bs, as.mapM f = .ok bs) ∨
      ∃ before a after bs e, as = before ++ a :: after ∧ before.mapM f = .ok bs ∧ f a = .error e := by
  cases hm : as.mapM f with
  | ok bs => exact .inl ⟨bs, rfl⟩
  | error e =>
    obtain ⟨before, a, after, has, hok, he⟩ := mapM_eq_error_iff.mp hm
    obtain ⟨bs, hbs⟩ := exists_mapM hok
    exact .inr ⟨before, a, after, bs, e, has, hbs, he⟩

theorem mapM_congr {f f' : α → Except ε β} {as : List α} (h : ∀ a ∈ as, f a = f' a) :
    as.mapM f = as.mapM f' := by
  induction as with
  | nil => rfl
  | cons a as ih =>
    rw [List.mapM_cons, List.mapM_cons, h a (by simp), ih fun b hb => h b (by simp [hb])]

theorem filterAuxM_eq_ok_iff {p : α → Except ε Bool} {as before after : List α} :
    as.filterAuxM p before = .ok after ↔
      (∀ a ∈ as, ∃ b, p a = .ok b) ∧
        after = (as.filter fun a => (p a).toOption == some true).reverse ++ before := by
  induction as generalizing before with
  | nil => simp [List.filterAuxM, eq_comm]
  | cons a as ih =>
    rw [List.filterAuxM, List.forall_mem_cons, List.filter_cons]
    cases ha : p a with
    | error e => simp
    | ok keep => cases keep <;> simp [ih]

theorem filterM_eq_ok_iff {p : α → Except ε Bool} {as bs : List α} :
    as.filterM p = .ok bs ↔
      (∀ a ∈ as, ∃ b, p a = .ok b) ∧ bs = as.filter fun a => (p a).toOption == some true := by
  simp only [List.filterM, bind_eq_ok_iff, filterAuxM_eq_ok_iff, pure_eq_ok, Except.ok.injEq]
  constructor
  · rintro ⟨after, ⟨ha, rfl⟩, rfl⟩
    exact ⟨ha, by simp⟩
  · rintro ⟨ha, rfl⟩
    exact ⟨_, ⟨ha, rfl⟩, by simp⟩

/-- The second outcome is the first, but where that fails in a forgiven way. It never does so itself. -/
inductive Forgives (forgiven : ε → Prop) : Except ε α → Except ε α → Prop
  | ok (a : α) : Forgives forgiven (.ok a) (.ok a)
  | kept {e} : ¬ forgiven e → Forgives forgiven (.error e) (.error e)
  | forgiven {e y} : forgiven e → (∀ e', y = .error e' → ¬ forgiven e') →
      Forgives forgiven (.error e) y

variable {forgiven : ε → Prop} {x y : Except ε α} {e : ε} {f f' : α → Except ε β}

theorem Forgives.not_forgiven (h : Forgives forgiven x y) (hy : y = .error e) : ¬ forgiven e := by
  cases h with
  | ok a => cases hy
  | kept he =>
    cases hy
    exact he
  | forgiven _ hn => exact hn e hy

theorem Forgives.eq_ok (h : Forgives forgiven x y) {a : α} (hx : x = .ok a) : y = .ok a := by
  cases h with
  | ok a => exact hx
  | kept => cases hx
  | forgiven => cases hx

theorem Forgives.eq_error (h : Forgives forgiven x y) (hx : x = .error e) (he : ¬ forgiven e) :
    y = .error e := by
  cases h with
  | ok a => cases hx
  | kept => exact hx
  | forgiven hf =>
    cases hx
    exact absurd hf he

theorem Forgives.bind (h : Forgives forgiven x y) (hf : ∀ a, Forgives forgiven (f a) (f' a)) :
    Forgives forgiven (x >>= f) (y >>= f') := by
  cases h with
  | ok a => exact hf a
  | kept he => exact .kept he
  | forgiven he hn =>
    refine .forgiven he fun e' hy => ?_
    cases y with
    | ok a => exact (hf a).not_forgiven hy
    | error e'' =>
      cases hy
      exact hn _ rfl

theorem Forgives.map (h : Forgives forgiven x y) (f : α → β) :
    Forgives forgiven (x.map f) (y.map f) := by
  cases h with
  | ok a => exact .ok (f a)
  | kept he => exact .kept he
  | forgiven he hn => exact .forgiven he fun e' hy => hn e' (map_eq_error_iff.mp hy)

theorem forgives_mapM {as : List α} (h : ∀ a ∈ as, Forgives forgiven (f a) (f' a)) :
    Forgives forgiven (as.mapM f) (as.mapM f') := by
  induction as with
  | nil => exact .ok []
  | cons a as ih =>
    rw [List.mapM_cons, List.mapM_cons]
    apply (h a (by simp)).bind
    intro b
    apply (ih fun a ha => h a (by simp [ha])).bind
    intro bs
    exact .ok (b :: bs)

end AvroColumns.Outcome
