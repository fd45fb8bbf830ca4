import AvroColumns.Proofs.Outcome
import AvroColumns.Proofs.Schema.Parts
import AvroColumns.Schema.Loading

/-!
# What is read

The schemas that a reader gives and the types it knows afterwards, as a relation with one rule for each
way to describe a schema. Documents that are accepted are read by these rules, so what they keep holds
of every schema that is read.
-/

namespace AvroColumns.Schema

open Outcome

namespace Scope

def start (σ : Scope) (name : TypeName) (aliases : List TypeName) : Scope :=
  { σ with begun := (name :: aliases).reverse.map (·, name) ++ σ.begun }

def finish (σ : Scope) (name : TypeName) (aliases : List TypeName) (s : Schema) : Scope where
  known := (name :: aliases).reverse.map (·, s) ++ σ.known
  begun := σ.begun.filter fun (n, _) => !(name :: aliases).contains n

end Scope

/-- What a logical type makes of the schema that carries it. -/
inductive Carries : Schema → Schema → Prop
  | same {s} : Carries s s
  | primitive {p q} (h : p ∈ [Primitive.bytes, .string, .int, .long]) :
    Carries (.primitive p) (.primitive q)
  | bytes {precision scale} : Carries (.primitive .bytes) (.decimal precision scale .bytes)
  | fixed {f precision scale} : Carries (.fixed f) (.decimal precision scale (.fixed f))
  | uuid {f} (h : f.size = 16) : Carries (.fixed f) (.primitive .uuid)
  | duration {f} : Carries (.fixed f) (.primitive .duration)

/-- Schemas read in a row, from one scope to another. -/
inductive Reads : Scope → List Schema → Scope → Prop
  | nil {σ} : Reads σ [] σ
  | cons {σ σ' σ'' s ss} (h : Reads σ [s] σ') (hs : Reads σ' ss σ'') : Reads σ (s :: ss) σ''
  | primitive {σ p} : Reads σ [.primitive p] σ
  | known {σ n t} (h : (n, t) ∈ σ.known) : Reads σ [.ref n] σ
  | begun {σ m n} (h : (m, n) ∈ σ.begun) : Reads σ [.ref n] σ
  | again {σ n t} (h : (n, t) ∈ σ.known) : Reads σ [t] σ
  | enum {σ e aliases} (h : Reading.symbolDefect? [] e.symbols = none) :
    Reads σ [.enum e] (σ.finish e.name aliases (.enum e))
  | fixed {σ f aliases} : Reads σ [.fixed f] (σ.finish f.name aliases (.fixed f))
  | record {σ σ' r aliases} (h : Reads (σ.start r.name aliases) (r.fields.map (·.type)) σ')
    (hn : ∀ f ∈ r.fields, isIdentifier f.name.toList)
    (hd : Reading.duplicateField? [] r.fields = none) (hb : isIdentifier r.name.base.toList) :
    Reads σ [.record r] (σ'.finish r.name aliases (.record r))
  | array {σ σ' s} (h : Reads σ [s] σ') : Reads σ [.array s] σ'
  | map {σ σ' s} (h : Reads σ [s] σ') : Reads σ [.map s] σ'
  | union {σ σ' ss} (h : Reads σ ss σ') (hd : Reading.unionDefect? [] ss = none) :
    Reads σ [.union ss] σ'
  | logical {σ σ' s t} (h : Reads σ [s] σ') (ht : Carries s t) : Reads σ [t] σ'

namespace Reading

def Gives {α : Type} (x : Reading α) (σ : Scope) (P : α → Scope → Prop) : Prop :=
  ∀ a σ', x.run σ = .ok (a, σ') → P a σ'

variable {α β : Type} {σ : Scope} {P : α → Scope → Prop} {x : Reading α}

theorem gives_bind {f : α → Reading β} {P : β → Scope → Prop}
    (h : Gives x σ fun a σ' => Gives (f a) σ' P) : Gives (x >>= f) σ P := by
  intro b σ' hb
  rw [StateT.run_bind, bind_eq_ok_iff] at hb
  obtain ⟨⟨a, τ⟩, ha, hb⟩ := hb
  exact h a τ ha b σ' hb

theorem Gives.bind {f : α → Reading β} {Q : β → Scope → Prop} (h : Gives x σ P)
    (hf : ∀ a σ', P a σ' → Gives (f a) σ' Q) : Gives (x >>= f) σ Q :=
  gives_bind fun a σ' ha => hf a σ' (h a σ' ha)

theorem gives_pure {a : α} (h : P a σ) : Gives (pure a) σ P := by
  intro b σ' hb
  cases hb
  exact h

theorem gives_fail {d : Defect} : Gives (fail d) σ P :=
  nofun

theorem gives_get {P : Scope → Scope → Prop} (h : P σ σ) : Gives get σ P := by
  intro b σ' hb
  cases hb
  exact h

theorem gives_lift {y : Except Defect α} (h : ∀ a, y = .ok a → P a σ) : Gives (liftM y) σ P := by
  intro a σ' ha
  cases y with
  | error e => cases ha
  | ok b =>
    cases ha
    exact h _ rfl

theorem gives_start {name : TypeName} {aliases : List TypeName} {P : Unit → Scope → Prop}
    (h : P () (σ.start name aliases)) : Gives (start name aliases) σ P := by
  intro a σ' ha
  cases ha
  exact h

theorem gives_finish {name : TypeName} {aliases : List TypeName} {s : Schema}
    {P : Unit → Scope → Prop} (h : P () (σ.finish name aliases s)) :
    Gives (finish name aliases s) σ P := by
  intro a σ' ha
  cases ha
  exact h

variable {space : String} {members : Members}

theorem reads_reference (text : String) :
    Gives (reference text space) σ fun s σ' => Reads σ [s] σ' := by
  apply gives_bind
  apply gives_lift
  intro name _
  apply gives_bind
  apply gives_get
  split
  next hk =>
    apply gives_pure
    obtain ⟨⟨n, t⟩, ht, hn⟩ := List.any_eq_true.mp hk
    rw [← of_decide_eq_true hn]
    exact .known ht
  next =>
    split
    next m own hb =>
      apply gives_pure
      exact .begun (List.mem_of_find?_eq_some hb)
    next => exact gives_fail

theorem reads_named (text : String) :
    Gives (named text space) σ fun s σ' => Reads σ [s] σ' := by
  unfold named
  split
  case h_9 => exact reads_reference text
  all_goals exact gives_pure .primitive

theorem isIdentifier_of_splitName {text base : String} {own : Option String}
    (h : splitName text = .ok (own, base)) : isIdentifier base.toList := by
  unfold splitName at h
  extract_lets cs base' space' at h
  split at h
  next hb =>
    cases h
    rw [Bool.and_eq_true] at hb
    rw [String.toList_ofList]
    exact hb.1
  next => cases h

theorem gives_typeName :
    Gives (typeName members space) σ fun name σ' => σ' = σ ∧ isIdentifier name.base.toList := by
  unfold typeName
  split
  · apply gives_bind
    apply gives_lift
    intro name hname
    dsimp only
    split
    · exact gives_pure ⟨rfl, isIdentifier_of_splitName hname⟩
    · exact gives_fail
  · exact gives_fail

theorem gives_seen :
    Gives (seen members space) σ fun s? σ' => σ' = σ ∧ ∀ s, s? = some s → Reads σ [s] σ := by
  unfold seen
  split
  · split
    · exact gives_pure ⟨rfl, nofun⟩
    · apply gives_bind
      apply gives_get
      split
      next m own _ hb =>
        apply gives_pure
        refine ⟨rfl, ?_⟩
        rintro s ⟨⟩
        exact .begun (List.mem_of_find?_eq_some hb)
      next n s _ hk =>
        apply gives_pure
        refine ⟨rfl, ?_⟩
        rintro s ⟨⟩
        exact .again (List.mem_of_find?_eq_some hk)
      next => exact gives_pure ⟨rfl, nofun⟩
  · exact gives_pure ⟨rfl, nofun⟩

theorem reads_orSeen {given : Option Json} {read : Unit → Reading Schema}
    (h : Gives (read ()) σ fun s σ' => Reads σ [s] σ') :
    Gives
      (if given.isNone then do
        let s? ← seen members space
        match s? with
        | some s => pure s
        | _ => read ()
      else read ()) σ fun s σ' => Reads σ [s] σ' := by
  split
  · refine gives_seen.bind ?_
    rintro s? _ ⟨rfl, hs⟩
    split
    next s => exact gives_pure (hs s rfl)
    next => exact h
  · exact h

theorem gives_symbolsOf (given : Option Json) :
    Gives (symbolsOf given) σ fun symbols σ' => σ' = σ ∧ symbolDefect? [] symbols = none := by
  unfold symbolsOf
  split
  · split
    next symbols =>
      extract_lets done
      split
      next =>
        apply gives_bind
        exact gives_fail
      next hs =>
        apply gives_pure
        exact ⟨rfl, Option.eq_none_iff_forall_ne_some.mpr hs⟩
    next => exact gives_fail
  · exact gives_fail

theorem gives_symbolDefault (symbols : List String) :
    Gives (symbolDefault members symbols) σ fun _ σ' => σ' = σ := by
  unfold symbolDefault
  split
  · exact gives_pure rfl
  · split
    · exact gives_pure rfl
    · exact gives_fail
  · exact gives_fail

theorem reads_enumeration :
    Gives (enumeration members space) σ fun s σ' => Reads σ [s] σ' := by
  unfold enumeration
  extract_lets given read
  apply reads_orSeen
  refine gives_typeName.bind ?_
  rintro name _ ⟨rfl, -⟩
  refine (gives_symbolsOf given).bind ?_
  rintro symbols _ ⟨rfl, hs⟩
  refine (gives_symbolDefault symbols).bind ?_
  rintro default _ rfl
  extract_lets s
  apply gives_bind
  apply gives_finish
  apply gives_pure
  exact .enum hs

theorem gives_blockSize (given : Option Json) :
    Gives (blockSize given members) σ fun _ σ' => σ' = σ := by
  unfold blockSize
  split
  · split
    · extract_lets done
      split
      · split
        · apply gives_bind
          exact gives_fail
        · exact gives_pure rfl
      · exact gives_pure rfl
    · exact gives_fail
  · exact gives_fail

theorem reads_fixed : Gives (fixed members space) σ fun s σ' => Reads σ [s] σ' := by
  unfold fixed
  extract_lets given read
  apply reads_orSeen
  refine (gives_blockSize given).bind ?_
  rintro size _ rfl
  refine gives_typeName.bind ?_
  rintro name _ ⟨rfl, -⟩
  extract_lets s
  apply gives_bind
  apply gives_finish
  apply gives_pure
  exact .fixed

theorem gives_checkDefault (field : String) (record : TypeName) (s : Schema) (j : Json) :
    Gives (checkDefault field record s j) σ fun _ σ' => σ' = σ := by
  unfold checkDefault
  apply gives_bind
  apply gives_get
  extract_lets known space ok
  split
  · split
    · split
      · exact gives_fail
      · exact gives_fail
    · exact gives_pure rfl
  · split
    · exact gives_fail
    · exact gives_pure rfl

variable {self : Json → String → Reading Schema}

theorem gives_field (hself : ∀ j space σ, Gives (self j space) σ fun s σ' => Reads σ [s] σ')
    (record : TypeName) :
    Gives (field self record members) σ fun f σ' =>
      Reads σ [f.type] σ' ∧ isIdentifier f.name.toList := by
  unfold field
  split
  next name _ =>
    extract_lets default aliases read
    have hread (hn : isIdentifier name.toList) (u : Unit) :
        Gives (read u) σ fun f σ' => Reads σ [f.type] σ' ∧ isIdentifier f.name.toList := by
      refine (hself _ _ _).bind ?_
      intro s σ' hs
      extract_lets build
      have hbuild (u : Unit) :
          Gives (build u) σ' fun f σ' => Reads σ [f.type] σ' ∧ isIdentifier f.name.toList :=
        gives_pure ⟨hs, hn⟩
      cases default with
      | none => exact hbuild ()
      | some j =>
        refine (gives_checkDefault name record s j).bind ?_
        rintro u _ rfl
        exact hbuild u
    split
    next =>
      apply gives_bind
      exact gives_fail
    next hn => exact hread (by simpa using hn) ()
  next => exact gives_fail

theorem gives_mapM {γ : Type} {g : γ → Reading β} {type : β → Schema} {p : β → Prop}
    (hg : ∀ c σ, Gives (g c) σ fun b σ' => Reads σ [type b] σ' ∧ p b) (cs : List γ) :
    Gives (cs.mapM g) σ fun bs σ' => Reads σ (bs.map type) σ' ∧ ∀ b ∈ bs, p b := by
  induction cs generalizing σ with
  | nil => exact gives_pure ⟨.nil, nofun⟩
  | cons c cs ih =>
    rw [List.mapM_cons]
    refine (hg c σ).bind ?_
    rintro b σ' ⟨hb, hp⟩
    refine ih.bind ?_
    rintro bs σ'' ⟨hbs, hps⟩
    apply gives_pure
    exact ⟨.cons hb hbs, List.forall_mem_cons.mpr ⟨hp, hps⟩⟩

theorem gives_fieldsOf (hself : ∀ j space σ, Gives (self j space) σ fun s σ' => Reads σ [s] σ')
    (record : TypeName) (given : Option Json) :
    Gives (fieldsOf self record given) σ fun fields σ' =>
      Reads σ (fields.map (·.type)) σ' ∧ (∀ f ∈ fields, isIdentifier f.name.toList) ∧
        duplicateField? [] fields = none := by
  unfold fieldsOf
  split
  · extract_lets objects
    refine (gives_mapM (fun _ _ => gives_field hself record) objects).bind ?_
    rintro fields σ' ⟨hs, hn⟩
    extract_lets done
    split
    next =>
      apply gives_bind
      exact gives_fail
    next hd =>
      apply gives_pure
      exact ⟨hs, hn, Option.eq_none_iff_forall_ne_some.mpr hd⟩
  · exact gives_fail

theorem reads_record (hself : ∀ j space σ, Gives (self j space) σ fun s σ' => Reads σ [s] σ') :
    Gives (record self members space) σ fun s σ' => Reads σ [s] σ' := by
  unfold record
  extract_lets given read
  apply reads_orSeen
  refine gives_typeName.bind ?_
  rintro name _ ⟨rfl, hb⟩
  extract_lets aliases
  apply gives_bind
  apply gives_start
  refine (gives_fieldsOf hself name given).bind ?_
  rintro fields σ' ⟨hs, hn, hd⟩
  extract_lets s
  apply gives_bind
  apply gives_finish
  apply gives_pure
  exact .record hs hn hd hb

theorem reads_union (hself : ∀ j space σ, Gives (self j space) σ fun s σ' => Reads σ [s] σ')
    (items : List Json) : Gives (union self items space) σ fun s σ' => Reads σ [s] σ' := by
  have hitem (j : Json) (σ : Scope) :
      Gives (self j space) σ fun s σ' => Reads σ [id s] σ' ∧ True := by
    intro s σ' h
    exact ⟨hself j space σ s σ' h, trivial⟩
  unfold union
  refine (gives_mapM hitem items).bind ?_
  rintro members σ' ⟨hs, -⟩
  rw [List.map_id] at hs
  extract_lets done
  split
  next =>
    apply gives_bind
    exact gives_fail
  next hd =>
    apply gives_pure
    exact .union hs (Option.eq_none_iff_forall_ne_some.mpr hd)

theorem reads_plain (hself : ∀ j space σ, Gives (self j space) σ fun s σ' => Reads σ [s] σ') :
    Gives (plain self members space) σ fun s σ' => Reads σ [s] σ' := by
  unfold plain
  split
  next => exact reads_record hself
  next => exact reads_enumeration
  next =>
    split
    · refine (hself _ _ _).bind ?_
      intro s σ' hs
      exact gives_pure (.array hs)
    · exact gives_fail
  next =>
    split
    · refine (hself _ _ _).bind ?_
      intro s σ' hs
      exact gives_pure (.map hs)
    · exact gives_fail
  next => exact reads_fixed
  next => exact reads_named _
  next => exact hself _ _ _
  next => exact reads_union hself _
  next => exact gives_fail
  next => exact gives_fail

theorem reads_base (hself : ∀ j space σ, Gives (self j space) σ fun s σ' => Reads σ [s] σ') :
    Gives (base self members space) σ fun s σ' => Reads σ [s] σ' := by
  unfold base
  split
  · exact reads_fixed
  · exact hself _ _ _
  · exact gives_fail

theorem carries_inPlaceOf {base t : Schema} {p q : Primitive}
    (hp : p ∈ [Primitive.bytes, .string, .int, .long])
    (h : (match base with
      | .primitive r => some (if r = p then .primitive q else base)
      | _ => some base) = some t) : Carries base t := by
  split at h
  next r =>
    cases h
    split
    next hr =>
      subst hr
      exact .primitive hp
    next => exact .same
  next =>
    cases h
    exact .same

theorem carries_logical? {type : String} {base t : Schema} (h : logical? type members base = some t) :
    Carries base t := by
  unfold logical? at h
  extract_lets inPlaceOf at h
  split at h
  next =>
    split at h
    next =>
      cases h
      exact .bytes
    next =>
      cases h
      exact .fixed
    next =>
      cases h
      exact .same
  next => exact carries_inPlaceOf (by decide) h
  next =>
    split at h
    next f =>
      cases h
      split
      next hf => exact .uuid hf
      next => exact .same
    next => exact carries_inPlaceOf (by decide) h
  case h_11 =>
    split at h
    next =>
      cases h
      exact .duration
    next =>
      cases h
      exact .same
  case h_12 => cases h
  all_goals exact carries_inPlaceOf (by decide) h

theorem reads_document (hself : ∀ j space σ, Gives (self j space) σ fun s σ' => Reads σ [s] σ')
    (j : Json) : Gives (document self j space) σ fun s σ' => Reads σ [s] σ' := by
  unfold document
  split
  next => exact reads_named _
  next => exact reads_union hself _
  next members =>
    split
    next type _ =>
      split
      next =>
        refine (reads_base hself).bind ?_
        intro s σ' hs
        apply gives_pure
        cases ht : logical? type members s with
        | none => exact hs
        | some t => exact .logical hs (carries_logical? ht)
      next => exact reads_plain hself
    next => exact gives_fail
    next => exact reads_plain hself
  next => exact gives_fail

theorem reads_schema (depth : Nat) (j : Json) (space : String) (σ : Scope) :
    Gives (schema depth j space) σ fun s σ' => Reads σ [s] σ' := by
  induction depth generalizing j space σ with
  | zero => exact gives_fail
  | succ depth ih => exact reads_document ih j

end Reading

end AvroColumns.Schema
