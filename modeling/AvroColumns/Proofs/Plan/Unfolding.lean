import AvroColumns.Plan.Discovery
import AvroColumns.Proofs.Path.Reading
import AvroColumns.Proofs.Schema.Scope

/-!
# Schemas unfolded

Discovery unfolds a schema into a tree. A mark tells how one schema of the tree lies below another: as a
member of a record, an item, the value of an entry, or a record among the members of a union. Only the
members of records count for the depth of the tree. The columns below a schema are its own and those below
the schemas next to it.
-/

namespace AvroColumns

inductive Mark
  | member (name : String)
  | item
  | entry
  | tagged (base : String)
  deriving DecidableEq

namespace Mark

def text : Mark → String
  | member name => "." ++ name
  | item => Document.firstItem
  | entry => Document.anyKey
  | tagged base => "[u:" ++ base ++ "]"

def segments : Mark → List Segment
  | member name => [.member name]
  | item => [.index 0]
  | entry => [.key "*key*"]
  | tagged _ => []

def cost : Mark → Nat
  | member _ => 1
  | _ => 0

def records : List Mark → Nat
  | [] => 0
  | m :: marks => m.cost + records marks

@[simp] theorem records_cons (m : Mark) (marks : List Mark) :
    records (m :: marks) = m.cost + records marks :=
  rfl

def after? : Mark → Nat → Option Nat
  | member _, 0 => none
  | member _, depth + 1 => some depth
  | _, depth => some depth

@[simp] theorem after?_eq_some_iff {m : Mark} {depth rest : Nat} :
    m.after? depth = some rest ↔ m.cost + rest = depth := by
  cases m with
  | member name => cases depth <;> simp [after?, cost]; omega
  | _ => simp [after?, cost, eq_comm]

@[simp] theorem after?_eq_none_iff {m : Mark} {depth : Nat} :
    m.after? depth = none ↔ depth < m.cost := by
  cases m with
  | member name => cases depth <;> simp [after?, cost]
  | _ => simp [after?, cost]

end Mark

namespace Document

open Outcome

def Site.mark (site : Site) (m : Mark) : Site :=
  ⟨site.path ++ String.ofList (Path.rendered m.segments), site.name ++ m.text⟩

def Site.along (site : Site) (marks : List Mark) : Site :=
  marks.foldl Site.mark site

namespace Site

variable (site : Site) (m : Mark) (marks : List Mark)

@[simp] theorem path_mark :
    (site.mark m).path = site.path ++ String.ofList (Path.rendered m.segments) :=
  rfl

@[simp] theorem name_mark : (site.mark m).name = site.name ++ m.text := rfl

@[simp] theorem along_nil : site.along [] = site := rfl

@[simp] theorem along_cons : site.along (m :: marks) = (site.mark m).along marks := rfl

end Site

variable (d : Document)

def nextsInside (s : Schema) : List (Mark × Schema) :=
  match d.node s with
  | .ok (.record r) => [(.tagged r.name.base, s)]
  | .ok (.array items) => [(.item, items)]
  | .ok (.map values) => [(.entry, values)]
  | _ => []

def nexts (s : Schema) : List (Mark × Schema) :=
  match d.node s with
  | .ok (.record r) => r.fields.map fun f => (.member f.name, f.type)
  | .ok (.array items) => [(.item, items)]
  | .ok (.map values) => [(.entry, values)]
  | .ok (.union members) => members.flatMap d.nextsInside
  | _ => []

/-- A mark leads from a member of a union to a schema next to the union. -/
inductive NextInside (s : Schema) : Mark → Schema → Prop
  | tagged {r} (hn : d.node s = .ok (.record r)) : NextInside s (.tagged r.name.base) s
  | item {items} (hn : d.node s = .ok (.array items)) : NextInside s .item items
  | entry {values} (hn : d.node s = .ok (.map values)) : NextInside s .entry values

/-- A mark leads from a schema to one next to it. -/
inductive Next (s : Schema) : Mark → Schema → Prop
  | member {r f} (hn : d.node s = .ok (.record r)) (hf : f ∈ r.fields) : Next s (.member f.name) f.type
  | item {items} (hn : d.node s = .ok (.array items)) : Next s .item items
  | entry {values} (hn : d.node s = .ok (.map values)) : Next s .entry values
  | inside {members u m t} (hn : d.node s = .ok (.union members)) (hu : u ∈ members)
      (h : NextInside d u m t) : Next s m t

inductive Unfolds : Schema → List Mark → Schema → Prop
  | here {s} : Unfolds s [] s
  | next {s m u marks t} (h : Next d s m u) (ht : Unfolds u marks t) : Unfolds s (m :: marks) t

def ownColumns (site : Site) (s : Schema) : Except UnknownType (List Column) := do
  match ← d.node s with
  | .leaf _ | .fixed _ => d.leafColumns site s
  | .union members => d.unionLeaves site members
  | _ => return []

def columnsBelow (depth : Nat) (site : Site) (p : Mark × Schema) : Except UnknownType (List Column) :=
  match p.1.after? depth with
  | some rest => d.columnsAt rest (site.mark p.1) p.2
  | none => .ok []

variable {d} {depth : Nat} {site : Site} {s t : Schema} {r : RecordType Schema} {ss : List Schema}
  {n : Node} {m : Mark} {marks : List Mark}

theorem columnsBelow_of_cost {rest : Nat} (h : m.cost + rest = depth) :
    d.columnsBelow depth site (m, t) = d.columnsAt rest (site.mark m) t := by
  rw [columnsBelow, Mark.after?_eq_some_iff.mpr h]

theorem columnsBelow_eq_ok_iff {cs : List Column} :
    d.columnsBelow depth site (m, t) = .ok cs ↔
      (∃ rest, m.cost + rest = depth ∧ d.columnsAt rest (site.mark m) t = .ok cs) ∨
        depth < m.cost ∧ cs = [] := by
  rw [columnsBelow]
  split
  next rest hrest =>
    have hcost : m.cost + rest = depth := Mark.after?_eq_some_iff.mp hrest
    constructor
    · intro h
      exact .inl ⟨rest, hcost, h⟩
    · rintro (⟨rest', hcost', h⟩ | ⟨hlt, -⟩)
      · obtain rfl : rest = rest' := by omega
        exact h
      · omega
  next hnone =>
    have hlt : depth < m.cost := Mark.after?_eq_none_iff.mp hnone
    constructor
    · rintro ⟨⟩
      exact .inr ⟨hlt, rfl⟩
    · rintro (⟨rest, hcost, -⟩ | ⟨-, rfl⟩)
      · omega
      · rfl

@[simp] theorem columnsBelow_item :
    d.columnsBelow depth site (.item, t) = d.columnsAt depth (site.extend firstItem) t :=
  rfl

@[simp] theorem columnsBelow_entry :
    d.columnsBelow depth site (.entry, t) = d.columnsAt depth (site.extend anyKey) t :=
  rfl

@[simp] theorem mark_member (site : Site) (name : String) :
    site.mark (.member name) = site.member name := by
  have htext : String.ofList (Path.rendered [.member name]) = "." ++ name := by
    apply String.toList_inj.mp
    simp
  rw [Site.mark, Site.member, Site.extend, Mark.segments, htext, Mark.text]

@[simp] theorem mark_tagged (site : Site) (r : RecordType Schema) :
    site.mark (.tagged r.name.base) = site.tagged r := by
  have hpath : String.ofList (Path.rendered (Mark.tagged r.name.base).segments) = "" := rfl
  rw [Site.mark, Site.tagged, hpath, String.append_empty, Mark.text, String.append_assoc,
    String.append_assoc, String.append_assoc]

theorem columnsAt_of_record (hn : d.node s = .ok (.record r)) :
    d.columnsAt depth site s = d.columnsOfRecord depth site r := by
  have hs := resolve_of_node hn rfl
  cases s with
  | ref name =>
    obtain ⟨D, hD, h⟩ := map_eq_ok_iff.mp hs
    cases D with
    | record r' =>
      cases h
      rw [columnsAt, hD]
    | _ => cases h
  | record r' =>
    cases hs
    rw [columnsAt]
  | _ => cases hs

theorem columnsAt_of_leaf {kind : LeafKind} (hn : d.node s = .ok n) (hl : n.leaf? = some kind) :
    d.columnsAt depth site s = d.leafColumns site s := by
  cases s with
  | ref name =>
    obtain ⟨D, hD, rfl⟩ := map_eq_ok_iff.mp hn
    have hleaf : d.leafColumns site (.ref name) = d.leafColumns site D.toSchema := by
      rw [leafColumns, leafColumns, resolve, hD]
      cases D <;> rfl
    rw [columnsAt, hD, hleaf]
    cases D with
    | record r => cases hl
    | _ => rfl
  | array | map | union | record =>
    cases hn
    cases hl
  | _ => rw [columnsAt] <;> simp

theorem columnsAt_of_error {e : UnknownType} (hn : d.node s = .error e) :
    d.columnsAt depth site s = .error e := by
  cases s with
  | ref name =>
    have hD := map_eq_error_iff.mp hn
    rw [columnsAt, hD]
  | _ => cases hn

theorem columnsOfRecord_eq (depth : Nat) (site : Site) (r : RecordType Schema) :
    d.columnsOfRecord depth site r =
      (do
        let below ← (r.fields.map fun f => (Mark.member f.name, f.type)).mapM (d.columnsBelow depth site)
        return below.flatten) := by
  rw [List.mapM_map]
  cases depth with
  | zero =>
    have hbelow : d.columnsBelow 0 site ∘ (fun f : Field Schema => (Mark.member f.name, f.type)) =
        fun _ => pure [] :=
      rfl
    rw [columnsOfRecord, hbelow, List.mapM_pure, pure_bind, List.map_const', List.flatten_replicate_nil]
    rfl
  | succ depth =>
    have hbelow : d.columnsBelow (depth + 1) site ∘ (fun f : Field Schema => (Mark.member f.name, f.type)) =
        fun f => d.columnsAt depth (site.member f.name) f.type := by
      funext f
      rw [← mark_member]
      rfl
    rw [columnsOfRecord, hbelow]

theorem columnsBelow_tagged (hn : d.node s = .ok (.record r)) :
    d.columnsBelow depth site (.tagged r.name.base, s) = d.columnsOfRecord depth (site.tagged r) r := by
  rw [← mark_tagged, ← columnsAt_of_record hn]
  rfl

theorem columnsInside_cons (ss : List Schema) (hs : ∃ n, d.node s = .ok n) :
    d.columnsInside depth site (s :: ss) =
      (do
        let front ← (d.nextsInside s).mapM (d.columnsBelow depth site)
        let rest ← d.columnsInside depth site ss
        return front.flatten ++ rest) := by
  obtain ⟨n, hn⟩ := hs
  rw [nextsInside, hn]
  cases s with
  | ref name =>
    obtain ⟨D, hD, rfl⟩ := map_eq_ok_iff.mp hn
    rw [columnsInside, hD]
    cases D with
    | record r => simp [Definition.node, columnsBelow_tagged hn]
    | _ => rfl
  | record r =>
    cases hn
    rw [columnsInside]
    simp [columnsBelow_tagged (s := .record r) rfl]
  | array items =>
    cases hn
    rw [columnsInside]
    simp
  | map values =>
    cases hn
    rw [columnsInside]
    simp
  | _ =>
    cases hn
    rw [columnsInside] <;> first | rfl | simp

theorem columnsInside_eq (hs : ∀ s ∈ ss, ∃ n, d.node s = .ok n) :
    d.columnsInside depth site ss =
      (do
        let below ← (ss.flatMap d.nextsInside).mapM (d.columnsBelow depth site)
        return below.flatten) := by
  induction ss with
  | nil =>
    rw [columnsInside]
    rfl
  | cons s ss ih =>
    rw [List.forall_mem_cons] at hs
    rw [columnsInside_cons ss hs.1, ih hs.2, List.flatMap_cons, List.mapM_append]
    simp

theorem exists_node_of_unionLeaves {cs : List Column} (h : d.unionLeaves site ss = .ok cs) (hs : s ∈ ss) :
    ∃ n, d.node s = .ok n := by
  obtain ⟨leaves, hl, -⟩ := bind_eq_ok_iff.mp h
  obtain ⟨keep, hk⟩ := (filterM_eq_ok_iff.mp hl).1 s hs
  obtain ⟨target, ht, -⟩ := bind_eq_ok_iff.mp hk
  obtain ⟨n, hn, -⟩ := bind_eq_ok_iff.mp ht
  exact ⟨n, hn⟩

theorem columnsAt_eq (depth : Nat) (site : Site) (s : Schema) :
    d.columnsAt depth site s =
      (do
        let own ← d.ownColumns site s
        let below ← (d.nexts s).mapM (d.columnsBelow depth site)
        return own ++ below.flatten) := by
  rw [ownColumns, nexts]
  cases hn : d.node s with
  | error e => exact columnsAt_of_error hn
  | ok n =>
    cases n with
    | record r =>
      rw [columnsAt_of_record hn, columnsOfRecord_eq]
      simp
    | array items =>
      obtain rfl := eq_of_node hn rfl rfl
      rw [columnsAt]
      cases hi : d.columnsAt depth (site.extend firstItem) items <;> simp [hi]
    | map values =>
      obtain rfl := eq_of_node hn rfl rfl
      rw [columnsAt]
      cases hi : d.columnsAt depth (site.extend anyKey) values <;> simp [hi]
    | union members =>
      obtain rfl := eq_union_of_node hn
      rw [columnsAt]
      cases hown : d.unionLeaves site members with
      | error e => simp [hown]
      | ok own =>
        rw [columnsInside_eq fun s => exists_node_of_unionLeaves hown]
        simp [hown]
    | fixed f =>
      rw [columnsAt_of_leaf hn rfl]
      cases d.leafColumns site s <;> simp
    | leaf kind =>
      rw [columnsAt_of_leaf hn rfl]
      cases d.leafColumns site s <;> simp

theorem columnsAt_eq_ok_iff {cs : List Column} :
    d.columnsAt depth site s = .ok cs ↔ ∃ own below, d.ownColumns site s = .ok own ∧
      (d.nexts s).mapM (d.columnsBelow depth site) = .ok below ∧ cs = own ++ below.flatten := by
  rw [columnsAt_eq]
  simp only [bind_eq_ok_iff, pure_eq_ok, Except.ok.injEq, exists_and_left, @eq_comm _ cs]

@[simp] theorem mem_nextsInside_iff : (m, t) ∈ d.nextsInside s ↔ d.NextInside s m t := by
  constructor
  · intro h
    rw [nextsInside] at h
    split at h
    next hn =>
      cases List.mem_singleton.mp h
      exact .tagged hn
    next hn =>
      cases List.mem_singleton.mp h
      exact .item hn
    next hn =>
      cases List.mem_singleton.mp h
      exact .entry hn
    next => cases h
  · intro h
    cases h with
    | _ hn =>
      rw [nextsInside, hn]
      exact List.mem_cons_self

@[simp] theorem mem_nexts_iff : (m, t) ∈ d.nexts s ↔ d.Next s m t := by
  constructor
  · intro h
    rw [nexts] at h
    split at h
    next hn =>
      obtain ⟨f, hf, he⟩ := List.mem_map.mp h
      cases he
      exact .member hn hf
    next hn =>
      cases List.mem_singleton.mp h
      exact .item hn
    next hn =>
      cases List.mem_singleton.mp h
      exact .entry hn
    next hn =>
      obtain ⟨u, hu, h⟩ := List.mem_flatMap.mp h
      exact .inside hn hu (mem_nextsInside_iff.mp h)
    next => cases h
  · intro h
    cases h with
    | @member r f hn hf =>
      rw [nexts, hn]
      exact List.mem_map.mpr ⟨f, hf, rfl⟩
    | item hn | entry hn =>
      rw [nexts, hn]
      exact List.mem_cons_self
    | inside hn hu h =>
      rw [nexts, hn]
      exact List.mem_flatMap.mpr ⟨_, hu, mem_nextsInside_iff.mpr h⟩

theorem NextInside.within (h : d.NextInside s m t) : t.Within s := by
  cases h with
  | tagged => exact .refl
  | item hn | entry hn =>
    rw [eq_of_node hn rfl rfl]
    exact .part List.mem_cons_self .refl

theorem Next.exists_part (h : d.Next s m t) (hc : m.cost = 0) : ∃ u ∈ s.parts, t.Within u := by
  cases h with
  | member => cases hc
  | item hn | entry hn =>
    rw [eq_of_node hn rfl rfl]
    exact ⟨t, List.mem_cons_self, .refl⟩
  | inside hn hu h =>
    rw [eq_of_node hn rfl rfl]
    exact ⟨_, hu, h.within⟩

theorem next_induction {P : Nat → Schema → Prop}
    (h : ∀ depth s, (∀ m t rest, d.Next s m t → m.cost + rest = depth → P rest t) → P depth s)
    (depth : Nat) (s : Schema) : P depth s := by
  induction depth using Nat.strongRecOn generalizing s with
  | ind depth ih =>
    suffices hs : ∀ u : Schema, u.Within s → P depth u from hs s .refl
    induction s using Schema.parts_induction with
    | h s ihs =>
      intro u hu
      rcases hu.eq_or_part with rfl | ⟨v, hv, hu⟩
      · apply h
        intro m t rest hm hcost
        rcases Nat.eq_zero_or_pos m.cost with hc | hc
        · obtain ⟨v, hv, ht⟩ := hm.exists_part hc
          obtain rfl : rest = depth := by omega
          exact ihs v hv t ht
        · exact ih rest (by omega) t
      · exact ihs v hv u hu

theorem mem_columnsAt_iff {cs : List Column} (h : d.columnsAt depth site s = .ok cs) {c : Column} :
    c ∈ cs ↔ ∃ marks t own, d.Unfolds s marks t ∧ Mark.records marks ≤ depth ∧
      d.ownColumns (site.along marks) t = .ok own ∧ c ∈ own := by
  induction depth, s using next_induction (d := d) generalizing site cs with
  | h depth s ih =>
    obtain ⟨own, below, hown, hbelow, rfl⟩ := columnsAt_eq_ok_iff.mp h
    rw [List.mem_append, List.mem_flatten]
    constructor
    · rintro (hc | ⟨cs, hcs, hc⟩)
      · exact ⟨[], s, own, .here, Nat.zero_le _, hown, hc⟩
      · obtain ⟨⟨m, u⟩, hm, hcs⟩ := exists_of_mem_mapM hbelow hcs
        rw [mem_nexts_iff] at hm
        rcases columnsBelow_eq_ok_iff.mp hcs with ⟨rest, hcost, hcs⟩ | ⟨-, rfl⟩
        · obtain ⟨marks, t, own, ht, hdepth, hown, hc⟩ := (ih m u rest hm hcost hcs).mp hc
          refine ⟨m :: marks, t, own, .next hm ht, ?_, hown, hc⟩
          rw [Mark.records_cons]
          omega
        · cases hc
    · rintro ⟨marks, t, own', ht, hdepth, hown', hc⟩
      cases ht with
      | here =>
        cases hown.symm.trans hown'
        exact .inl hc
      | @next _ m u marks _ hm ht =>
        rw [Mark.records_cons] at hdepth
        obtain ⟨rest, rfl⟩ := Nat.exists_eq_add_of_le (Nat.le_of_add_right_le hdepth)
        obtain ⟨cs, hcs, hbelow⟩ := exists_mem_of_mapM hbelow (mem_nexts_iff.mpr hm)
        rw [columnsBelow_of_cost rfl] at hbelow
        refine .inr ⟨cs, hcs, (ih m u rest hm rfl hbelow).mpr ?_⟩
        exact ⟨marks, t, own', ht, Nat.le_of_add_le_add_left hdepth, hown', hc⟩

end Document

end AvroColumns
