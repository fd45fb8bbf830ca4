import AvroColumns.Proofs.Schema.Reads

namespace AvroColumns.Schema

variable {σ σ' : Scope} {s t u : Schema} {ss : List Schema} {name n : TypeName}
  {aliases : List TypeName}

def Lawful : Schema → Prop
  | .enum e => Reading.symbolDefect? [] e.symbols = none
  | .record r =>
    (∀ f ∈ r.fields, isIdentifier f.name.toList) ∧ Reading.duplicateField? [] r.fields = none ∧
      isIdentifier r.name.base.toList
  | .union members => Reading.unionDefect? [] members = none
  | _ => True

theorem nodup_of_symbolDefect? {before ss : List String}
    (h : Reading.symbolDefect? before ss = none) : ss.Nodup ∧ ∀ s ∈ ss, s ∉ before := by
  induction ss generalizing before with
  | nil => exact ⟨List.nodup_nil, nofun⟩
  | cons s ss ih =>
    rw [Reading.symbolDefect?] at h
    split at h
    · cases h
    · split at h
      · cases h
      next hs =>
        obtain ⟨hn, hb⟩ := ih h
        refine ⟨List.nodup_cons.mpr ⟨fun hm => hb s hm List.mem_cons_self, hn⟩, ?_⟩
        intro x hx
        rcases List.mem_cons.mp hx with rfl | hx
        · simpa using hs
        · exact fun hm => hb x hx (List.mem_cons_of_mem _ hm)

theorem nodup_of_duplicateField? {before : List String} {fs : List (Field Schema)}
    (h : Reading.duplicateField? before fs = none) :
    (fs.map (·.name)).Nodup ∧ ∀ f ∈ fs, f.name ∉ before := by
  induction fs generalizing before with
  | nil => exact ⟨List.nodup_nil, nofun⟩
  | cons f fs ih =>
    rw [Reading.duplicateField?] at h
    split at h
    · cases h
    next hf =>
      obtain ⟨hn, hb⟩ := ih h
      constructor
      · apply List.nodup_cons.mpr
        refine ⟨?_, hn⟩
        intro hm
        obtain ⟨g, hg, he⟩ := List.mem_map.mp hm
        exact hb g hg (he ▸ List.mem_append_right _ List.mem_cons_self)
      · intro g hg
        rcases List.mem_cons.mp hg with rfl | hg
        · simpa using hf
        · exact fun hm => hb g hg (List.mem_append_right _ (List.mem_cons_of_mem _ hm))

theorem ne_union_of_unionDefect? {before members : List Schema}
    (h : Reading.unionDefect? before members = none) (ht : t ∈ members) (ts : List Schema) :
    t ≠ .union ts := by
  induction members generalizing before with
  | nil => cases ht
  | cons m members ih =>
    by_cases hm : ∃ us, m = .union us
    · obtain ⟨us, rfl⟩ := hm
      cases h
    · have hm' (us : List Schema) (he : m = .union us) : False := hm ⟨us, he⟩
      rw [Reading.unionDefect?] at h
      · split at h
        · cases h
        · rcases List.mem_cons.mp ht with rfl | ht
          · exact hm' ts
          · exact ih h ht
      · exact hm'

theorem pairwise_of_unionDefect? {before members : List Schema}
    (h : Reading.unionDefect? before members = none) :
    members.Pairwise (fun s t => Reading.sameKind t s = false) ∧
      ∀ t ∈ members, ∀ s ∈ before, Reading.sameKind t s = false := by
  induction members generalizing before with
  | nil => exact ⟨.nil, nofun⟩
  | cons m members ih =>
    have hm (us : List Schema) (he : m = .union us) : False :=
      ne_union_of_unionDefect? h List.mem_cons_self us he
    rw [Reading.unionDefect?] at h
    · split at h
      · cases h
      next hb =>
        obtain ⟨hp, hs⟩ := ih h
        constructor
        · refine List.pairwise_cons.mpr ⟨?_, hp⟩
          exact fun t ht => hs t ht m List.mem_cons_self
        · intro t ht s hs'
          rcases List.mem_cons.mp ht with rfl | ht
          · simpa using fun h => hb (List.any_eq_true.mpr ⟨s, hs', h⟩)
          · exact hs t ht s (List.mem_cons_of_mem _ hs')
    · exact hm

namespace Scope

def Has (σ : Scope) (n : TypeName) : Prop :=
  (∃ t, (n, t) ∈ σ.known) ∨ (n, n) ∈ σ.begun

structure Holds (σ : Scope) (u : Schema) : Prop where
  lawful : u.Lawful
  ref : ∀ n, u = .ref n → σ.Has n
  definition : ∀ D, u.definition? = some D → (D.name, D.toSchema) ∈ σ.known

structure Sound (σ : Scope) : Prop where
  begun : ∀ p ∈ σ.begun, σ.Has p.2
  known : ∀ p ∈ σ.known, ∀ u, u.Within p.2 → σ.Holds u

theorem sound_empty : Sound ⟨[], []⟩ := ⟨nofun, nofun⟩

theorem Has.start (h : σ.Has n) : (σ.start name aliases).Has n := by
  rcases h with h | h
  · exact .inl h
  · exact .inr (List.mem_append_right _ h)

theorem Has.finish (h : σ.Has n) : (σ.finish name aliases s).Has n := by
  by_cases hn : n ∈ name :: aliases
  · left
    refine ⟨s, List.mem_append_left _ ?_⟩
    exact List.mem_map_of_mem (List.mem_reverse.mpr hn)
  · rcases h with ⟨t, h⟩ | h
    · exact .inl ⟨t, List.mem_append_right _ h⟩
    · right
      apply List.mem_filter.mpr
      exact ⟨h, by simpa using hn⟩

theorem Holds.start (h : σ.Holds u) : (σ.start name aliases).Holds u :=
  ⟨h.lawful, fun n hn => (h.ref n hn).start, h.definition⟩

theorem Holds.finish (h : σ.Holds u) : (σ.finish name aliases s).Holds u where
  lawful := h.lawful
  ref n hn := (h.ref n hn).finish
  definition D hD := List.mem_append_right _ (h.definition D hD)

theorem Sound.start (h : σ.Sound) : (σ.start name aliases).Sound where
  begun p hp := by
    rcases List.mem_append.mp hp with hp | hp
    · obtain ⟨m, -, rfl⟩ := List.mem_map.mp hp
      right
      apply List.mem_append_left
      exact List.mem_map_of_mem (List.mem_reverse.mpr List.mem_cons_self)
    · exact (h.begun p hp).start
  known p hp u hu := (h.known p hp u hu).start

theorem Sound.finish (h : σ.Sound)
    (hs : ∀ u, u.Within s → (σ.finish name aliases s).Holds u) :
    (σ.finish name aliases s).Sound where
  begun p hp := (h.begun p (List.mem_filter.mp hp).1).finish
  known p hp u hu := by
    rcases List.mem_append.mp hp with hp | hp
    · obtain ⟨m, -, rfl⟩ := List.mem_map.mp hp
      exact hs u hu
    · exact (h.known p hp u hu).finish

theorem mem_finish : (name, s) ∈ (σ.finish name aliases s).known :=
  List.mem_append_left _ (List.mem_map_of_mem (List.mem_reverse.mpr List.mem_cons_self))

theorem holds_within (hu : u.Within s) (hs : σ.Holds s)
    (hp : ∀ t ∈ s.parts, ∀ u, u.Within t → σ.Holds u) : σ.Holds u := by
  rcases hu.eq_or_part with rfl | ⟨t, ht, hu⟩
  · exact hs
  · exact hp t ht u hu

theorem holds_leaf (hl : s.Lawful) (hr : ∀ n, s ≠ .ref n) (hd : s.definition? = none) :
    σ.Holds s where
  lawful := hl
  ref n hn := absurd hn (hr n)
  definition D hD := by simp [hd] at hD

theorem holds_ref (h : σ.Has n) : σ.Holds (.ref n) where
  lawful := trivial
  ref m hm := by
    cases hm
    exact h
  definition := nofun

theorem Holds.carries (h : Carries s t) (hs : σ.Holds s) : σ.Holds t := by
  cases h with
  | same => exact hs
  | fixed =>
    refine ⟨trivial, nofun, ?_⟩
    rintro D ⟨⟩
    exact hs.definition _ rfl
  | _ => exact holds_leaf trivial nofun rfl

theorem holds_definition {D : Definition} (hl : D.toSchema.Lawful) :
    (σ.finish D.name aliases D.toSchema).Holds D.toSchema := by
  refine ⟨hl, by cases D <;> nofun, fun E hE => ?_⟩
  rw [D.definition?_toSchema, Option.some.injEq] at hE
  exact hE ▸ mem_finish

/-- Reading the schemas keeps a scope sound, what holds goes on to hold, and it holds of the schemas. -/
structure Keeps (σ : Scope) (ss : List Schema) (σ' : Scope) : Prop where
  sound : σ'.Sound
  mono : ∀ u, σ.Holds u → σ'.Holds u
  holds : ∀ s ∈ ss, ∀ u, u.Within s → σ'.Holds u

theorem Keeps.cons {σ'' : Scope} (h : Keeps σ [s] σ') (hs : Keeps σ' ss σ'') :
    Keeps σ (s :: ss) σ'' where
  sound := hs.sound
  mono u hu := hs.mono u (h.mono u hu)
  holds t ht u hu := by
    rcases List.mem_cons.mp ht with rfl | ht
    · exact hs.mono u (h.holds _ List.mem_cons_self u hu)
    · exact hs.holds t ht u hu

theorem keeps_leaf (hσ : σ.Sound) (hp : s.parts = []) (hs : σ.Holds s) : Keeps σ [s] σ where
  sound := hσ
  mono _ hu := hu
  holds := by
    refine List.forall_mem_singleton.mpr fun u hu => ?_
    rw [hu.of_parts_eq_nil hp]
    exact hs

theorem keeps_finish (hσ : σ.Sound) (hs : ∀ u, u.Within s → (σ.finish name aliases s).Holds u) :
    Keeps σ [s] (σ.finish name aliases s) where
  sound := hσ.finish hs
  mono _ hu := hu.finish
  holds := List.forall_mem_singleton.mpr hs

theorem Keeps.whole (h : Keeps σ s.parts σ') (hs : σ'.Holds s) : Keeps σ [s] σ' where
  sound := h.sound
  mono := h.mono
  holds := List.forall_mem_singleton.mpr fun _ hu => holds_within hu hs h.holds

theorem Keeps.carries (h : Keeps σ [s] σ') (ht : Carries s t) : Keeps σ [t] σ' where
  sound := h.sound
  mono := h.mono
  holds := by
    refine List.forall_mem_singleton.mpr fun u hu => ?_
    have hs := List.forall_mem_singleton.mp h.holds
    have ht' := (hs _ .refl).carries ht
    cases ht with
    | same => exact hs u hu
    | _ =>
      rw [hu.of_parts_eq_nil rfl]
      exact ht'

end Scope

namespace Reads

open Scope

theorem sound (h : Reads σ ss σ') (hσ : σ.Sound) : Keeps σ ss σ' := by
  induction h with
  | nil => exact ⟨hσ, fun _ hu => hu, nofun⟩
  | cons _ _ ih ihs => exact (ih hσ).cons (ihs (ih hσ).sound)
  | primitive => exact keeps_leaf hσ rfl (holds_leaf trivial nofun rfl)
  | known hk => exact keeps_leaf hσ rfl (holds_ref (.inl ⟨_, hk⟩))
  | begun hb => exact keeps_leaf hσ rfl (holds_ref (hσ.begun _ hb))
  | again hk => exact ⟨hσ, fun _ hu => hu, List.forall_mem_singleton.mpr (hσ.known _ hk)⟩
  | @enum σ e aliases he =>
    refine keeps_finish hσ fun u hu => ?_
    rw [hu.of_parts_eq_nil rfl]
    exact holds_definition (show (Definition.enum e).toSchema.Lawful from he)
  | @fixed σ f aliases =>
    refine keeps_finish hσ fun u hu => ?_
    rw [hu.of_parts_eq_nil rfl]
    exact holds_definition (show (Definition.fixed f).toSchema.Lawful from trivial)
  | @record σ σ' r aliases _ hn hd hb ih =>
    -- the fields are read with the record's names begun, and its own definition ends that
    have hf := ih hσ.start
    have hr : (Definition.record r).toSchema.Lawful := ⟨hn, hd, hb⟩
    have hs (u : Schema) (hu : u.Within (.record r)) :
        (σ'.finish r.name aliases (.record r)).Holds u :=
      holds_within hu (holds_definition hr) fun t ht u hu => (hf.holds t ht u hu).finish
    refine ⟨hf.sound.finish hs, fun u hu => (hf.mono u hu.start).finish, ?_⟩
    exact List.forall_mem_singleton.mpr hs
  | array _ ih => exact (ih hσ).whole (holds_leaf trivial nofun rfl)
  | map _ ih => exact (ih hσ).whole (holds_leaf trivial nofun rfl)
  | union _ hd ih => exact (ih hσ).whole (holds_leaf hd nofun rfl)
  | logical _ ht ih => exact (ih hσ).carries ht

theorem begun_subset (h : Reads σ ss σ') : σ'.begun ⊆ σ.begun := by
  induction h with
  | cons _ _ ih ihs => exact fun p hp => ih (ihs hp)
  | enum => exact fun p hp => (List.mem_filter.mp hp).1
  | fixed => exact fun p hp => (List.mem_filter.mp hp).1
  | record _ _ _ _ ih =>
    intro p hp
    obtain ⟨hp, hn⟩ := List.mem_filter.mp hp
    rcases List.mem_append.mp (ih hp) with hp | hp
    · obtain ⟨m, hm, rfl⟩ := List.mem_map.mp hp
      simp_all
    · exact hp
  | array _ ih => exact ih
  | map _ ih => exact ih
  | union _ _ ih => exact ih
  | logical _ _ ih => exact ih
  | _ => exact List.Subset.refl _

end Reads

/-- The node at the place where a type is defined: the type, or a logical type that it carries. -/
inductive StandsFor : Schema → Schema → Prop
  | itself {s : Schema} (h : s.name?.isSome) : StandsFor s s
  | decimal {f precision scale} : StandsFor (.decimal precision scale (.fixed f)) (.fixed f)
  | uuid {f} (h : f.size = 16) : StandsFor (.primitive .uuid) (.fixed f)
  | duration {f} : StandsFor (.primitive .duration) (.fixed f)

theorem StandsFor.carries (h : StandsFor s u) (ht : Carries s t) : StandsFor t u := by
  cases ht with
  | same => exact h
  | primitive hp =>
    cases h with
    | itself h => cases h
    | _ => simp at hp
  | bytes =>
    cases h with
    | itself h => cases h
  | fixed =>
    cases h
    exact .decimal
  | uuid hf =>
    cases h
    exact .uuid hf
  | duration =>
    cases h
    exact .duration

def Defines (s t : Schema) : Prop :=
  ∃ u : Schema, u.Within s ∧ u.StandsFor t

theorem defines_self (h : s.name?.isSome) : Defines s s :=
  ⟨s, .refl, .itself h⟩

theorem Defines.of_part {p : Schema} (h : Defines p t) (hp : p ∈ s.parts) : Defines s t := by
  obtain ⟨u, hu, h⟩ := h
  exact ⟨u, hu.trans (.part hp .refl), h⟩

theorem exists_defines_whole (h : ∃ p ∈ s.parts, Defines p t) : ∃ s' ∈ [s], Defines s' t := by
  obtain ⟨p, hp, h⟩ := h
  exact ⟨s, List.mem_cons_self, h.of_part hp⟩

theorem Defines.carries (h : Defines s u) (ht : Carries s t) : Defines t u := by
  obtain ⟨v, hv, h⟩ := h
  by_cases hs : s.parts = []
  · obtain rfl := hv.of_parts_eq_nil hs
    exact ⟨t, .refl, h.carries ht⟩
  · cases ht with
    | same => exact ⟨v, hv, h⟩
    | _ => exact absurd rfl hs

namespace Reads

@[simp] theorem mem_finish_iff {p : TypeName × Schema} :
    p ∈ (σ.finish name aliases s).known ↔ (p.1 ∈ name :: aliases ∧ p.2 = s) ∨ p ∈ σ.known := by
  rw [Scope.finish, List.mem_append, List.mem_map]
  constructor
  · rintro (⟨m, hm, rfl⟩ | h)
    · exact .inl ⟨List.mem_reverse.mp hm, rfl⟩
    · exact .inr h
  · rintro (⟨hm, rfl⟩ | h)
    · exact .inl ⟨p.1, List.mem_reverse.mpr hm, rfl⟩
    · exact .inr h

theorem exists_defines (h : Reads σ ss σ') {p : TypeName × Schema} (hp : p ∈ σ'.known) :
    p ∈ σ.known ∨ ∃ s ∈ ss, Defines s p.2 := by
  induction h with
  | cons _ _ ih ihs =>
    rcases ihs hp with hp | ⟨s, hs, h⟩
    · rcases ih hp with hp | ⟨s, hs, h⟩
      · exact .inl hp
      · obtain rfl := List.mem_singleton.mp hs
        exact .inr ⟨s, List.mem_cons_self, h⟩
    · exact .inr ⟨s, List.mem_cons_of_mem _ hs, h⟩
  | enum =>
    rcases mem_finish_iff.mp hp with ⟨-, h⟩ | hp
    · rw [h]
      exact .inr ⟨_, List.mem_cons_self, defines_self rfl⟩
    · exact .inl hp
  | fixed =>
    rcases mem_finish_iff.mp hp with ⟨-, h⟩ | hp
    · rw [h]
      exact .inr ⟨_, List.mem_cons_self, defines_self rfl⟩
    · exact .inl hp
  | record _ _ _ _ ih =>
    rcases mem_finish_iff.mp hp with ⟨-, h⟩ | hp
    · rw [h]
      exact .inr ⟨_, List.mem_cons_self, defines_self rfl⟩
    · exact (ih hp).imp_right exists_defines_whole
  | array _ ih => exact (ih hp).imp_right exists_defines_whole
  | map _ ih => exact (ih hp).imp_right exists_defines_whole
  | union _ _ ih => exact (ih hp).imp_right exists_defines_whole
  | logical _ ht ih =>
    rcases ih hp with hp | ⟨s, hs, h⟩
    · exact .inl hp
    · obtain rfl := List.mem_singleton.mp hs
      exact .inr ⟨_, List.mem_cons_self, h.carries ht⟩
  | _ => exact .inl hp

end Reads

end AvroColumns.Schema
