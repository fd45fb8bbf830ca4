import Mathlib.Data.List.Nodup
import AvroColumns.Proofs.Plan.Discovery
import AvroColumns.Proofs.Schema.References

namespace AvroColumns

namespace Mark

variable {m m' : Mark} {marks marks' : List Mark} {before after cs ds : List Char}

def rendered (marks : List Mark) : List Char :=
  marks.flatMap fun m => m.text.toList

inductive Plain : Mark → Prop
  | member {name} (h : ∀ c ∈ name.toList, Path.isPlain c) : Plain (.member name)
  | item : Plain .item
  | entry : Plain .entry
  | tagged {base} (h : ∀ c ∈ base.toList, Path.isPlain c) : Plain (.tagged base)

@[simp] theorem toList_text_member (name : String) :
    (member name).text.toList = '.' :: name.toList := by
  simp [text]

@[simp] theorem toList_text_item : item.text.toList = ['[', '0', ']'] :=
  rfl

@[simp] theorem toList_text_entry : entry.text.toList = ['[', '*', 'k', 'e', 'y', '*', ']'] :=
  rfl

@[simp] theorem toList_text_tagged (base : String) :
    (tagged base).text.toList = '[' :: 'u' :: ':' :: (base.toList ++ [']']) := by
  simp [text]

def Starts (cs : List Char) : Prop :=
  cs = [] ∨ ∃ c ds, cs = c :: ds ∧ Path.isPlain c = false

theorem exists_text (m : Mark) : ∃ c ds, m.text.toList = c :: ds ∧ Path.isPlain c = false := by
  cases m with
  | member name => exact ⟨'.', _, toList_text_member name, rfl⟩
  | item => exact ⟨'[', _, toList_text_item, rfl⟩
  | entry => exact ⟨'[', _, toList_text_entry, rfl⟩
  | tagged base => exact ⟨'[', _, toList_text_tagged base, rfl⟩

@[simp] theorem rendered_nil : rendered [] = [] := rfl

@[simp] theorem rendered_cons (m : Mark) (marks : List Mark) :
    rendered (m :: marks) = m.text.toList ++ rendered marks :=
  List.flatMap_cons

theorem rendered_cons_ne_nil (m : Mark) (marks : List Mark) : rendered (m :: marks) ≠ [] := by
  obtain ⟨c, ds, hm, -⟩ := exists_text m
  rw [rendered_cons, hm]
  nofun

theorem starts_rendered (marks : List Mark) : Starts (rendered marks) := by
  cases marks with
  | nil => exact .inl rfl
  | cons m marks =>
    obtain ⟨c, ds, hm, hc⟩ := exists_text m
    rw [rendered_cons, hm]
    exact .inr ⟨c, _, rfl, hc⟩

theorem Starts.takeWhile (h : Starts cs) : cs.takeWhile Path.isPlain = [] := by
  rcases h with rfl | ⟨c, ds, rfl, hc⟩
  · rfl
  · rw [List.takeWhile_cons_of_neg (by simp [hc])]

theorem append_inj_of_plain (hc : ∀ c ∈ cs, Path.isPlain c) (hd : ∀ c ∈ ds, Path.isPlain c)
    (hb : Starts before) (ha : Starts after) (h : cs ++ before = ds ++ after) :
    cs = ds ∧ before = after := by
  have htake := congrArg (List.takeWhile Path.isPlain) h
  rw [List.takeWhile_append_of_pos hc, List.takeWhile_append_of_pos hd, hb.takeWhile, ha.takeWhile,
    List.append_nil, List.append_nil] at htake
  subst htake
  exact ⟨rfl, List.append_cancel_left h⟩

theorem text_append_inj (hm : m.Plain) (hm' : m'.Plain) (hb : Starts before) (ha : Starts after)
    (h : m.text.toList ++ before = m'.text.toList ++ after) : m = m' ∧ before = after := by
  cases hm with
  | member hn =>
    cases hm' with
    | member hn' =>
      rw [toList_text_member, toList_text_member] at h
      obtain ⟨he, rfl⟩ := append_inj_of_plain hn hn' hb ha (List.cons.inj h).2
      rw [String.toList_inj.mp he]
      exact ⟨rfl, rfl⟩
    | _ => simp at h
  | item =>
    cases hm' with
    | item => exact ⟨rfl, List.append_cancel_left h⟩
    | _ => simp at h
  | entry =>
    cases hm' with
    | entry => exact ⟨rfl, List.append_cancel_left h⟩
    | _ => simp at h
  | tagged hn =>
    cases hm' with
    | tagged hn' =>
      simp only [toList_text_tagged, List.cons_append, List.append_assoc, List.cons.injEq, true_and] at h
      obtain ⟨he, h⟩ := append_inj_of_plain hn hn' (.inr ⟨']', _, rfl, rfl⟩) (.inr ⟨']', _, rfl, rfl⟩) h
      rw [String.toList_inj.mp he]
      exact ⟨rfl, (List.cons.inj h).2⟩
    | _ => simp at h

theorem rendered_injective (h : ∀ m ∈ marks, m.Plain) (h' : ∀ m ∈ marks', m.Plain)
    (he : rendered marks = rendered marks') : marks = marks' := by
  induction marks generalizing marks' with
  | nil =>
    cases marks' with
    | nil => rfl
    | cons m' marks' => exact absurd he.symm (rendered_cons_ne_nil m' marks')
  | cons m marks ih =>
    cases marks' with
    | nil => exact absurd he (rendered_cons_ne_nil m marks)
    | cons m' marks' =>
      rw [List.forall_mem_cons] at h h'
      rw [rendered_cons, rendered_cons] at he
      obtain ⟨rfl, hrest⟩ :=
        text_append_inj h.1 h'.1 (starts_rendered marks) (starts_rendered marks') he
      rw [ih h.2 h'.2 hrest]

end Mark

namespace Document

open Outcome

variable {d : Document} {s t u a b : Schema} {p q : Mark × Schema} {m : Mark} {marks marks' : List Mark}
  {depth rest : Nat} {site : Site} {cs cs' : List Column} {x : String} {members : List Schema}
  {text : String}

@[simp] theorem name_along (site : Site) (marks : List Mark) :
    (site.along marks).name = site.name ++ String.ofList (Mark.rendered marks) := by
  induction marks generalizing site with
  | nil => simp
  | cons m marks ih => simp [ih, String.append_assoc]

theorem Unfolds.exists_ownColumns (ht : d.Unfolds s marks t) (h : d.columnsAt depth site s = .ok cs)
    (hdepth : Mark.records marks ≤ depth) : ∃ own, d.ownColumns (site.along marks) t = .ok own := by
  induction ht generalizing depth site cs with
  | here =>
    obtain ⟨own, -, hown, -⟩ := columnsAt_eq_ok_iff.mp h
    exact ⟨own, hown⟩
  | @next s m u marks t hm ht ih =>
    rw [Mark.records_cons] at hdepth
    obtain ⟨rest, rfl⟩ := Nat.exists_eq_add_of_le (Nat.le_of_add_right_le hdepth)
    obtain ⟨own, below, -, hbelow, -⟩ := columnsAt_eq_ok_iff.mp h
    obtain ⟨cs, -, hcs⟩ := exists_mem_of_mapM hbelow (mem_nexts_iff.mpr hm)
    rw [columnsBelow_of_cost rfl] at hcs
    exact ih hcs (Nat.le_of_add_le_add_left hdepth)

theorem mem_names_iff (h : d.columnsAt depth site s = .ok cs) :
    x ∈ cs.map (·.name) ↔ ∃ marks t, d.Unfolds s marks t ∧ Mark.records marks ≤ depth ∧
      d.HasColumn t ∧ x = (site.along marks).name := by
  rw [List.mem_map]
  constructor
  · rintro ⟨c, hc, rfl⟩
    obtain ⟨marks, t, own, ht, hdepth, hown, hc⟩ := (mem_columnsAt_iff h).mp hc
    rcases eq_of_ownColumns hown with ⟨rfl, -⟩ | ⟨c, rfl, hname, -, hcolumn, -⟩
    · cases hc
    · obtain rfl := List.mem_singleton.mp hc
      exact ⟨marks, t, ht, hdepth, hcolumn, hname⟩
  · rintro ⟨marks, t, ht, hdepth, hcolumn, rfl⟩
    obtain ⟨own, hown⟩ := ht.exists_ownColumns h hdepth
    rcases eq_of_ownColumns hown with ⟨-, hnot⟩ | ⟨c, rfl, hname, -⟩
    · exact absurd hcolumn hnot
    · exact ⟨c, (mem_columnsAt_iff h).mpr ⟨marks, t, [c], ht, hdepth, hown, List.mem_cons_self⟩, hname⟩

theorem mem_namesBelow_iff (h : d.columnsBelow depth site p = .ok cs) :
    x ∈ cs.map (·.name) ↔ ∃ marks t, d.Unfolds p.2 marks t ∧ p.1.cost + Mark.records marks ≤ depth ∧
      d.HasColumn t ∧ x = (site.along (p.1 :: marks)).name := by
  rcases columnsBelow_eq_ok_iff.mp h with ⟨rest, rfl, hcs⟩ | ⟨hlt, rfl⟩
  · rw [mem_names_iff hcs]
    simp only [Nat.add_le_add_iff_left]
    rfl
  · refine iff_of_false List.not_mem_nil ?_
    rintro ⟨marks, t, -, hdepth, -⟩
    omega

def Apart (d : Document) (depth : Nat) (p q : Mark × Schema) : Prop :=
  p.1 = q.1 → ∀ marks t u, d.Unfolds p.2 marks t → d.HasColumn t → d.Unfolds q.2 marks u → d.HasColumn u →
    depth < p.1.cost + Mark.records marks

def Namesakes (d : Document) (a b : Schema) : Prop :=
  ∃ r r', d.node a = .ok (.record r) ∧ d.node b = .ok (.record r') ∧ r.name.base = r'.name.base

/-- The same marks lead to columns from both of two records with one base name, and enter no more records
than the depth. -/
structure Clash (d : Document) (depth : Nat) (a b : Schema) : Prop where
  namesakes : d.Namesakes a b
  columns : ∃ marks t u, d.Unfolds a marks t ∧ d.HasColumn t ∧ d.Unfolds b marks u ∧ d.HasColumn u ∧
    Mark.records marks ≤ depth

theorem apart_iff_not_clash (hkind : Schema.Reading.sameKind b a = false) :
    (∀ p ∈ d.nextsInside a, ∀ q ∈ d.nextsInside b, d.Apart depth p q) ↔ ¬ d.Clash depth a b := by
  constructor
  · rintro hapart ⟨⟨r, r', hr, hr', he⟩, marks, t, u, ht, hct, hu, hcu, hdepth⟩
    have hlt : depth < (Mark.tagged r.name.base).cost + Mark.records marks :=
      hapart _ (mem_nextsInside_iff.mpr (.tagged hr)) _ (mem_nextsInside_iff.mpr (.tagged hr'))
        (congrArg Mark.tagged he) marks t u ht hct hu hcu
    simp only [Mark.cost, Nat.zero_add] at hlt
    omega
  · rintro hnot ⟨m, v⟩ hp ⟨m', v'⟩ hq he marks t u ht hct hu hcu
    cases mem_nextsInside_iff.mp hp with
    | tagged hr =>
      cases mem_nextsInside_iff.mp hq with
      | tagged hr' =>
        by_contra! hdepth
        simp only [Mark.cost, Nat.zero_add] at hdepth
        exact hnot ⟨⟨_, _, hr, hr', Mark.tagged.inj he⟩, marks, t, u, ht, hct, hu, hcu, hdepth⟩
      | _ => cases he
    | item hn =>
      cases mem_nextsInside_iff.mp hq with
      | item hn' =>
        rw [eq_of_node hn rfl rfl, eq_of_node hn' rfl rfl] at hkind
        cases hkind
      | _ => cases he
    | entry hn =>
      cases mem_nextsInside_iff.mp hq with
      | entry hn' =>
        rw [eq_of_node hn rfl rfl, eq_of_node hn' rfl rfl] at hkind
        cases hkind
      | _ => cases he

section Lawful

variable (hl : ∀ u : Schema, u.Within d.root → u.Lawful)
include hl

theorem NextInside.plain (hs : s.Within d.root)
    (h : d.NextInside s m t) : m.Plain := by
  cases h with
  | tagged hn =>
    exact .tagged (isPlain_of_isIdentifier (hl _ (within_of_resolve hs (resolve_of_node hn rfl))).2.2)
  | item => exact .item
  | entry => exact .entry

theorem Next.plain (hs : s.Within d.root)
    (h : d.Next s m t) : m.Plain := by
  cases h with
  | member hn hf =>
    exact .member (isPlain_of_isIdentifier
      ((hl _ (within_of_resolve hs (resolve_of_node hn rfl))).1 _ hf))
  | item => exact .item
  | entry => exact .entry
  | inside hn hu h => exact h.plain hl (within_of_node hs hn hu)

theorem Unfolds.plain (hs : s.Within d.root)
    (h : d.Unfolds s marks t) : ∀ m ∈ marks, m.Plain := by
  induction h with
  | here => nofun
  | next hm _ ih => exact List.forall_mem_cons.mpr ⟨hm.plain hl hs, ih (hm.follows.within hs)⟩

theorem along_injective (hs : s.Within d.root)
    (ht : d.Unfolds s marks t) (hu : d.Unfolds s marks' u)
    (h : (site.along marks).name = (site.along marks').name) : marks = marks' := by
  rw [name_along, name_along, String.append_right_inj, String.ofList_inj] at h
  exact Mark.rendered_injective (ht.plain hl hs) (hu.plain hl hs) h

theorem disjoint_names_iff (hs : s.Within d.root)
    (hp : p ∈ d.nexts s) (hq : q ∈ d.nexts s) (h : d.columnsBelow depth site p = .ok cs)
    (h' : d.columnsBelow depth site q = .ok cs') :
    (cs.map (·.name)).Disjoint (cs'.map (·.name)) ↔ d.Apart depth p q := by
  constructor
  · intro hdisjoint he marks t u ht hc hu hc'
    by_contra! hdepth
    refine hdisjoint ((mem_namesBelow_iff h).mpr ⟨marks, t, ht, hdepth, hc, rfl⟩) ?_
    exact (mem_namesBelow_iff h').mpr ⟨marks, u, hu, he ▸ hdepth, hc', by rw [he]⟩
  · intro hapart x hx hx'
    obtain ⟨marks, t, ht, hdepth, hc, rfl⟩ := (mem_namesBelow_iff h).mp hx
    obtain ⟨marks', u, hu, -, hc', hname⟩ := (mem_namesBelow_iff h').mp hx'
    rw [mem_nexts_iff] at hp hq
    obtain ⟨he, rfl⟩ := List.cons.inj (along_injective hl hs (.next hp ht) (.next hq hu) hname)
    have := hapart he marks t u ht hc hu hc'
    omega

theorem disjoint_own_names (hs : s.Within d.root)
    (hp : p ∈ d.nexts s) (h : d.ownColumns site s = .ok cs) (h' : d.columnsBelow depth site p = .ok cs') :
    (cs.map (·.name)).Disjoint (cs'.map (·.name)) := by
  intro x hx hx'
  obtain ⟨c, hc, rfl⟩ := List.mem_map.mp hx
  obtain ⟨marks, t, ht, -, -, hname⟩ := (mem_namesBelow_iff h').mp hx'
  rcases eq_of_ownColumns h with ⟨rfl, -⟩ | ⟨c', rfl, hown, -⟩
  · cases hc
  · obtain rfl := List.mem_singleton.mp hc
    have hnil : [] = p.1 :: marks :=
      along_injective hl hs .here (.next (mem_nexts_iff.mp hp) ht) (hown.symm.trans hname)
    cases hnil

theorem nodup_names_iff_nexts (hs : s.Within d.root)
    (h : d.columnsAt depth site s = .ok cs) :
    (cs.map (·.name)).Nodup ↔
      (∀ p ∈ d.nexts s, ∀ cs, d.columnsBelow depth site p = .ok cs → (cs.map (·.name)).Nodup) ∧
        (d.nexts s).Pairwise (d.Apart depth) := by
  obtain ⟨own, below, hown, hbelow, rfl⟩ := columnsAt_eq_ok_iff.mp h
  obtain ⟨cols, rfl, hcols⟩ := exists_map_of_mapM hbelow
  have hone : (own.map (·.name)).Nodup := by
    rcases eq_of_ownColumns hown with ⟨rfl, -⟩ | ⟨c, rfl, -⟩
    · exact List.nodup_nil
    · exact List.nodup_singleton _
  have hbeside : (own.map (·.name)).Disjoint ((d.nexts s).flatMap fun p => (cols p).map (·.name)) := by
    intro x hx hx'
    obtain ⟨p, hp, hx'⟩ := List.mem_flatMap.mp hx'
    exact disjoint_own_names hl hs hp hown (hcols p hp) hx hx'
  have hapart : (d.nexts s).Pairwise (fun p q => ((cols p).map (·.name)).Disjoint ((cols q).map (·.name))) ↔
      (d.nexts s).Pairwise (d.Apart depth) :=
    List.Pairwise.iff_of_mem fun hp hq => disjoint_names_iff hl hs hp hq (hcols _ hp) (hcols _ hq)
  have heach (p : Mark × Schema) (hp : p ∈ d.nexts s) : ((cols p).map (·.name)).Nodup ↔
      ∀ cs, d.columnsBelow depth site p = .ok cs → (cs.map (·.name)).Nodup := by
    simp [hcols p hp]
  rw [← List.flatMap_def, List.map_append, List.map_flatMap, List.nodup_append', and_iff_right hone,
    and_iff_left hbeside, List.nodup_flatMap, ← hapart]
  exact and_congr_left' (forall₂_congr heach)

theorem nodup_names_iff (hs : s.Within d.root)
    (h : d.columnsAt depth site s = .ok cs) :
    (cs.map (·.name)).Nodup ↔ ∀ marks u rest, d.Unfolds s marks u → Mark.records marks + rest = depth →
      (d.nexts u).Pairwise (d.Apart rest) := by
  induction depth, s using next_induction (d := d) generalizing site cs with
  | h depth s ih =>
    obtain ⟨own, below, -, hbelow, -⟩ := columnsAt_eq_ok_iff.mp h
    rw [nodup_names_iff_nexts hl hs h]
    -- The first of the marks leads to a schema next to this one, the others on from there.
    constructor
    · rintro ⟨hnames, hapart⟩ marks u rest hu hdepth
      cases hu with
      | here =>
        obtain rfl : rest = depth := by simpa [Mark.records] using hdepth
        exact hapart
      | @next _ m v marks _ hm hu =>
        have hmem := mem_nexts_iff.mpr hm
        obtain ⟨cs, -, hcs⟩ := exists_mem_of_mapM hbelow hmem
        have hnodup := hnames _ hmem cs hcs
        have hcost : m.cost + (Mark.records marks + rest) = depth := by
          rw [← hdepth, Mark.records_cons, Nat.add_assoc]
        rw [columnsBelow_of_cost hcost] at hcs
        exact (ih m v _ hm hcost (hm.follows.within hs) hcs).mp hnodup marks u rest hu rfl
    · intro hapart
      refine ⟨?_, hapart [] s depth .here (Nat.zero_add _)⟩
      rintro ⟨m, v⟩ hmem cs hcs
      have hm := mem_nexts_iff.mp hmem
      rcases columnsBelow_eq_ok_iff.mp hcs with ⟨rest, hcost, hcs⟩ | ⟨-, rfl⟩
      · rw [ih m v rest hm hcost (hm.follows.within hs) hcs]
        intro marks u left hu hleft
        refine hapart (m :: marks) u left (.next hm hu) ?_
        rw [Mark.records_cons]
        omega
      · exact List.nodup_nil

theorem pairwise_apart_iff (hs : s.Within d.root) :
    (d.nexts s).Pairwise (d.Apart depth) ↔
      ∀ members, s = .union members → members.Pairwise fun a b => ¬ d.Clash depth a b := by
  by_cases hunion : ∃ members, s = .union members
  · obtain ⟨members, rfl⟩ := hunion
    have hkinds := (Schema.pairwise_of_unionDefect? (hl _ hs)).1
    have hone (a : Schema) : (d.nextsInside a).Pairwise (d.Apart depth) := by
      rw [nextsInside]
      split <;> simp
    have hnexts : d.nexts (.union members) = members.flatMap d.nextsInside := rfl
    simp only [hnexts, Schema.union.injEq, forall_eq', List.pairwise_flatMap, hone, implies_true, true_and]
    constructor
    · intro h
      exact (h.and hkinds).imp fun hab => (apart_iff_not_clash hab.2).mp hab.1
    · intro h
      exact (h.and hkinds).imp fun hab => (apart_iff_not_clash hab.2).mpr hab.1
  · refine iff_of_true ?_ fun members h => absurd ⟨members, h⟩ hunion
    rw [nexts]
    split
    next r hn =>
      have hnodup := (Schema.nodup_of_duplicateField?
        (hl _ (within_of_resolve hs (resolve_of_node hn rfl))).2.1).1
      refine List.pairwise_map.mpr ((List.pairwise_map.mp hnodup).imp ?_)
      intro f g hne he
      exact absurd (Mark.member.inj he) hne
    next => exact List.pairwise_singleton _ _
    next => exact List.pairwise_singleton _ _
    next members hn => exact absurd ⟨members, eq_union_of_node hn⟩ hunion
    next => exact .nil

end Lawful

/-- Discovered columns have distinct names exactly if no union that the marks lead to has members that
clash, within the records that may still be entered there. This is so if no union has two records with one
base name, whatever their namespaces. -/
theorem discover_names (h : ofText text = .ok d) (hc : d.discover = .ok cs) :
    ((cs.map (·.name)).Nodup ↔
      ∀ marks members depth, d.Unfolds d.root marks (.union members) →
        Mark.records marks + depth = recordDepth →
          members.Pairwise fun a b => ¬ d.Clash depth a b) ∧
    ((∀ members, (Schema.union members).Within d.root →
        members.Pairwise fun a b => ¬ d.Namesakes a b) →
      (cs.map (·.name)).Nodup) := by
  have hl (u : Schema) (hu : u.Within d.root) : u.Lawful := lawful_of_ofText h hu
  have hiff : (cs.map (·.name)).Nodup ↔
      ∀ marks members depth, d.Unfolds d.root marks (.union members) →
        Mark.records marks + depth = recordDepth →
          members.Pairwise fun a b => ¬ d.Clash depth a b := by
    rw [nodup_names_iff hl .refl hc]
    constructor
    · intro hapart marks members depth hu hdepth
      exact (pairwise_apart_iff hl (hu.follows.within .refl)).mp (hapart marks _ depth hu hdepth) members rfl
    · intro hclash marks u depth hu hdepth
      rw [pairwise_apart_iff hl (hu.follows.within .refl)]
      rintro members rfl
      exact hclash marks members depth hu hdepth
  refine ⟨hiff, fun hnames => hiff.mpr ?_⟩
  intro marks members depth hu _
  exact (hnames members (hu.follows.within .refl)).imp fun hnot hclash => hnot hclash.namesakes

def single (space base : String) : RecordType Schema :=
  ⟨⟨space, base⟩, [⟨"x", [], .primitive .int, none⟩]⟩

def singleJson (space base : String) : Json :=
  .obj [("fields", .arr [.obj [("name", .str "x"), ("type", .str "int")]]), ("name", .str base),
    ("namespace", .str space), ("type", .str "record")]

set_option maxRecDepth 4000 in
theorem discover_names_sharing :
    ∃ d cs, ofText (Json.arr [.str "int", .obj [("items", .str "int"), ("type", .str "array")],
        singleJson "n" "A", singleJson "m" "B"]).text = .ok d ∧ d.discover = .ok cs ∧
      cs.map (·.name) = ["$", "$[0]", "$[u:A].x", "$[u:B].x"] ∧ (cs.map (·.name)).Nodup := by
  let int := Schema.primitive .int
  let shared := [int, .array int, .record (single "n" "A"), .record (single "m" "B")]
  let d := ofSchema (.union shared)
  have htext : ofText (Json.arr [.str "int", .obj [("items", .str "int"), ("type", .str "array")],
      singleJson "n" "A", singleJson "m" "B"]).text = .ok d := by cbv
  have hcs : d.discover = .ok [⟨"$", "$", .integer, none⟩, ⟨"$[0]", "$[0]", .integer, none⟩,
      ⟨"$[u:A].x", "$.x", .integer, none⟩, ⟨"$[u:B].x", "$.x", .integer, none⟩] := by cbv
  have hwithin {u s : Schema} (hu : u.Within s) (hs : s = .union shared) : u = .union shared ∨ u ∈ shared := by
    induction hu with
    | refl => exact .inl hs
    | part hp _ ih =>
      right
      rcases ih hs with rfl | ht
      · exact hp
      · simp only [shared, List.mem_cons, List.not_mem_nil, or_false] at ht
        rcases ht with rfl | rfl | rfl | rfl
        · cases hp
        all_goals exact List.mem_singleton.mp hp ▸ List.mem_cons_self
  refine ⟨d, _, htext, hcs, rfl, (discover_names htext hcs).2 ?_⟩
  intro members hm
  obtain rfl : members = shared := by simpa [shared, int] using hwithin hm rfl
  simp [shared, int, Namesakes, node, single]

set_option maxRecDepth 4000 in
theorem namesakes_share_column :
    ∃ d cs, ofText (Json.arr [singleJson "n" "A", singleJson "m" "A"]).text = .ok d ∧
      d.discover = .ok cs ∧ cs.map (·.name) = ["$[u:A].x", "$[u:A].x"] ∧ ¬ (cs.map (·.name)).Nodup := by
  let d := ofSchema (.union [.record (single "n" "A"), .record (single "m" "A")])
  have htext : ofText (Json.arr [singleJson "n" "A", singleJson "m" "A"]).text = .ok d := by cbv
  have hcs : d.discover = .ok [⟨"$[u:A].x", "$.x", .integer, none⟩,
      ⟨"$[u:A].x", "$.x", .integer, none⟩] := by cbv
  refine ⟨d, _, htext, hcs, rfl, ?_⟩
  simp

end Document

end AvroColumns
