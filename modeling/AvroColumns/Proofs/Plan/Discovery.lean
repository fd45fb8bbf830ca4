import AvroColumns.Proofs.Plan.Unfolding

namespace AvroColumns.Document

open Outcome

/-- The segments lead from a schema to a leaf with a column, by some member of each union. -/
inductive Course (d : Document) : Schema → List Segment → Prop
  | leaf {s n kind} (hn : d.node s = .ok n) (hl : n.leaf? = some kind) (ht : kind.target?.isSome) :
      Course d s []
  | item {s items segments} (hn : d.node s = .ok (.array items)) (h : Course d items segments) :
      Course d s (.index 0 :: segments)
  | entry {s values segments} (hn : d.node s = .ok (.map values)) (h : Course d values segments) :
      Course d s (.key "*key*" :: segments)
  | member {s r f segments} (hn : d.node s = .ok (.record r)) (hf : f ∈ r.fields)
      (h : Course d f.type segments) : Course d s (.member f.name :: segments)
  | branch {s members t segments} (hn : d.node s = .ok (.union members)) (ht : t ∈ members)
      (h : Course d t segments) : Course d s segments

/-- The segments lead from a schema to another, by some member of each union. -/
inductive Follows (d : Document) : Schema → List Segment → Schema → Prop
  | here {s} : Follows d s [] s
  | item {s items segments t} (hn : d.node s = .ok (.array items)) (h : Follows d items segments t) :
      Follows d s (.index 0 :: segments) t
  | entry {s values segments t} (hn : d.node s = .ok (.map values)) (h : Follows d values segments t) :
      Follows d s (.key "*key*" :: segments) t
  | member {s r f segments t} (hn : d.node s = .ok (.record r)) (hf : f ∈ r.fields)
      (h : Follows d f.type segments t) : Follows d s (.member f.name :: segments) t
  | branch {s members u segments t} (hn : d.node s = .ok (.union members)) (hu : u ∈ members)
      (h : Follows d u segments t) : Follows d s segments t

def Leaf (d : Document) (s : Schema) (kind : LeafKind) : Prop :=
  ∃ n, d.node s = .ok n ∧ n.leaf? = some kind

def Mapped (d : Document) (s : Schema) : Prop :=
  ∃ kind target, d.Leaf s kind ∧ kind.target? = some target

/-- The schema is a leaf with a type of column, or a union with several such leaves, which share a column
of texts. -/
inductive Shows (d : Document) (s : Schema) : Target → Prop
  | leaf {kind target} (h : d.Leaf s kind) (ht : kind.target? = some target) : Shows d s target
  | leaves {members a b} (hn : d.node s = .ok (.union members)) (hab : [a, b].Sublist members)
      (ha : d.Mapped a) (hb : d.Mapped b) : Shows d s .string

inductive HasColumn (d : Document) (s : Schema) : Prop
  | leaf (h : d.Mapped s)
  | member {members u} (hn : d.node s = .ok (.union members)) (hu : u ∈ members) (h : d.Mapped u)

def Linked (d : Document) : Prop :=
  ∀ name, (Schema.ref name).Within d.root → ∃ D, d.follow name = .ok D

variable {d : Document} {s t u : Schema} {segments : List Segment} {site : Site} {depth : Nat}
  {members : List Schema} {r : RecordType Schema} {c : Column} {cs own : List Column} {m : Mark}
  {marks : List Mark} {target : Target}

theorem columnTarget?_eq_some_iff :
    d.columnTarget? s = .ok (some target) ↔ ∃ kind, d.Leaf s kind ∧ kind.target? = some target := by
  rw [columnTarget?, bind_eq_ok_iff]
  constructor
  · rintro ⟨n, hn, h⟩
    obtain ⟨kind, hk, ht⟩ := Option.bind_eq_some_iff.mp (Except.ok.inj h)
    exact ⟨kind, ⟨n, hn, hk⟩, ht⟩
  · rintro ⟨kind, ⟨n, hn, hk⟩, ht⟩
    exact ⟨n, hn, by simp [hk, ht]⟩

theorem mapped_iff : d.Mapped s ↔ ∃ target, d.columnTarget? s = .ok (some target) := by
  simp only [Mapped, columnTarget?_eq_some_iff]
  exact exists_comm

theorem eq_of_leafColumns (h : d.leafColumns site s = .ok own) :
    own = [] ∧ ¬ d.Mapped s ∨
      ∃ c, own = [c] ∧ c.name = site.name ∧ c.path = site.path ∧ d.Mapped s ∧ d.Shows s c.target := by
  obtain ⟨t, hs, h⟩ := bind_eq_ok_iff.mp h
  obtain ⟨target, ht, h⟩ := bind_eq_ok_iff.mp h
  have hs : d.columnTarget? s = .ok target := by
    rwa [columnTarget?, node_of_resolve hs]
  cases target with
  | none =>
    cases h
    refine .inl ⟨rfl, fun hm => ?_⟩
    obtain ⟨target, ht⟩ := mapped_iff.mp hm
    cases hs.symm.trans ht
  | some target =>
    cases h
    obtain ⟨kind, hk, ht⟩ := columnTarget?_eq_some_iff.mp hs
    exact .inr ⟨_, rfl, rfl, rfl, ⟨kind, target, hk, ht⟩, .leaf hk ht⟩

theorem mem_leaves_iff {leaves : List Schema}
    (h : (members.filterM fun s => return (← d.columnTarget? s).isSome) = .ok leaves) :
    u ∈ leaves ↔ u ∈ members ∧ d.Mapped u := by
  rw [(filterM_eq_ok_iff.mp h).2, List.mem_filter, mapped_iff]
  refine and_congr_right fun _ => ?_
  cases d.columnTarget? u with
  | error e => simp
  | ok target => cases target <;> simp

theorem eq_of_unionLeaves (hn : d.node s = .ok (.union members))
    (h : d.unionLeaves site members = .ok own) :
    own = [] ∧ (∀ u ∈ members, ¬ d.Mapped u) ∨
      ∃ c, own = [c] ∧ c.name = site.name ∧ c.path = site.path ∧ (∃ u ∈ members, d.Mapped u) ∧
        ∃ t, d.Follows s [] t ∧ d.Shows t c.target := by
  obtain ⟨leaves, hl, h⟩ := bind_eq_ok_iff.mp h
  have hmem (u : Schema) : u ∈ leaves ↔ u ∈ members ∧ d.Mapped u := mem_leaves_iff hl
  match leaves with
  | [] =>
    cases h
    exact .inl ⟨rfl, fun u hu hm => List.not_mem_nil ((hmem u).mpr ⟨hu, hm⟩)⟩
  | [u] =>
    obtain ⟨hu, hm⟩ := (hmem u).mp List.mem_cons_self
    rcases eq_of_leafColumns h with ⟨-, hnot⟩ | ⟨c, rfl, hname, hpath, -, hc⟩
    · exact absurd hm hnot
    · exact .inr ⟨c, rfl, hname, hpath, ⟨u, hu, hm⟩, u, .branch hn hu .here, hc⟩
  | a :: b :: rest =>
    cases h
    have hab : [a, b].Sublist members := by
      refine List.Sublist.trans ?_ ((filterM_eq_ok_iff.mp hl).2 ▸ List.filter_sublist)
      exact ((List.nil_sublist rest).cons_cons b).cons_cons a
    obtain ⟨ha, hma⟩ := (hmem a).mp List.mem_cons_self
    obtain ⟨-, hmb⟩ := (hmem b).mp (List.mem_cons_of_mem _ List.mem_cons_self)
    exact .inr ⟨_, rfl, rfl, rfl, ⟨a, ha, hma⟩, s, .here, .leaves hn hab hma hmb⟩

theorem eq_of_ownColumns (h : d.ownColumns site s = .ok own) :
    own = [] ∧ ¬ d.HasColumn s ∨
      ∃ c, own = [c] ∧ c.name = site.name ∧ c.path = site.path ∧ d.HasColumn s ∧
        ∃ t, d.Follows s [] t ∧ d.Shows t c.target := by
  obtain ⟨n, hn, h⟩ := bind_eq_ok_iff.mp h
  have notLeaf (hl : n.leaf? = none) : ¬ d.Mapped s := by
    rintro ⟨kind, target, ⟨n', hn', hk⟩, -⟩
    cases hn.symm.trans hn'
    cases hl.symm.trans hk
  have notUnion (hu : ∀ members, n ≠ .union members) (hs : ¬ d.Mapped s) : ¬ d.HasColumn s := by
    rintro (hs' | ⟨hn', -⟩)
    · exact hs hs'
    · cases hn.symm.trans hn'
      exact hu _ rfl
  have leaf (hu : ∀ members, n ≠ .union members) (h : d.leafColumns site s = .ok own) :
      own = [] ∧ ¬ d.HasColumn s ∨
        ∃ c, own = [c] ∧ c.name = site.name ∧ c.path = site.path ∧ d.HasColumn s ∧
          ∃ t, d.Follows s [] t ∧ d.Shows t c.target := by
    rcases eq_of_leafColumns h with ⟨rfl, hs⟩ | ⟨c, rfl, hname, hpath, hs, hc⟩
    · exact .inl ⟨rfl, notUnion hu hs⟩
    · exact .inr ⟨c, rfl, hname, hpath, .leaf hs, s, .here, hc⟩
  cases n with
  | record | array | map =>
    cases h
    exact .inl ⟨rfl, notUnion nofun (notLeaf rfl)⟩
  | union members =>
    rcases eq_of_unionLeaves hn h with ⟨rfl, hnot⟩ | ⟨c, rfl, hname, hpath, ⟨u, hu, hm⟩, hc⟩
    · refine .inl ⟨rfl, ?_⟩
      rintro (hs | ⟨hn', hu, hm⟩)
      · exact notLeaf rfl hs
      · cases hn.symm.trans hn'
        exact hnot _ hu hm
    · exact .inr ⟨c, rfl, hname, hpath, .member hn hu hm, hc⟩
  | fixed | leaf => exact leaf nofun h

theorem path_along (site : Site) (marks : List Mark) :
    (site.along marks).path = site.path ++ String.ofList (Path.rendered (marks.flatMap Mark.segments)) := by
  induction marks generalizing site with
  | nil => simp
  | cons m marks ih => simp [ih, String.append_assoc]

theorem path_along_root (name : String) (marks : List Mark) :
    (Site.along ⟨"$", name⟩ marks).path = (Path.written (marks.flatMap Mark.segments)).raw := by
  rw [path_along, Path.written, ← List.singleton_append, String.ofList_append]

theorem Follows.append {before after : List Segment} (h : d.Follows s before t)
    (h' : d.Follows t after u) : d.Follows s (before ++ after) u := by
  induction h with
  | here => exact h'
  | item hn _ ih => exact .item hn (ih h')
  | entry hn _ ih => exact .entry hn (ih h')
  | member hn hf _ ih => exact .member hn hf (ih h')
  | branch hn hu _ ih => exact .branch hn hu (ih h')

theorem Follows.within (hs : s.Within d.root) (h : d.Follows s segments t) : t.Within d.root := by
  induction h with
  | here => exact hs
  | item hn _ ih | entry hn _ ih => exact ih (within_of_node hs hn List.mem_cons_self)
  | member hn hf _ ih => exact ih (within_of_node hs hn (List.mem_map_of_mem hf))
  | branch hn hu _ ih => exact ih (within_of_node hs hn hu)

theorem NextInside.follows (h : d.NextInside s m t) : d.Follows s m.segments t := by
  cases h with
  | tagged => exact .here
  | item hn => exact .item hn .here
  | entry hn => exact .entry hn .here

theorem Next.follows (h : d.Next s m t) : d.Follows s m.segments t := by
  cases h with
  | member hn hf => exact .member hn hf .here
  | item hn => exact .item hn .here
  | entry hn => exact .entry hn .here
  | inside hn hu h => exact .branch hn hu h.follows

theorem Unfolds.follows (h : d.Unfolds s marks t) : d.Follows s (marks.flatMap Mark.segments) t := by
  induction h with
  | here => exact .here
  | next h _ ih => exact h.follows.append ih

theorem exists_follows (h : d.discover = .ok cs) (hc : c ∈ cs) :
    ∃ segments t, d.Follows d.root segments t ∧ d.Shows t c.target ∧
      c.path = (Path.written segments).raw := by
  obtain ⟨marks, s, own, hs, -, hown, hc⟩ := (mem_columnsAt_iff h).mp hc
  rcases eq_of_ownColumns hown with ⟨rfl, -⟩ | ⟨c, rfl, -, hpath, -, t, ht, hshows⟩
  · cases hc
  · obtain rfl := List.mem_singleton.mp hc
    refine ⟨marks.flatMap Mark.segments ++ [], t, hs.follows.append ht, hshows, ?_⟩
    rw [List.append_nil, hpath, path_along_root]

theorem Mapped.course (h : d.Mapped s) : d.Course s [] := by
  obtain ⟨kind, target, ⟨n, hn, hk⟩, ht⟩ := h
  exact .leaf hn hk (by simp [ht])

theorem Shows.course (h : d.Shows s target) : d.Course s [] := by
  cases h with
  | leaf h ht => exact Mapped.course ⟨_, _, h, ht⟩
  | leaves hn hab ha hb => exact .branch hn (hab.subset List.mem_cons_self) ha.course

theorem Follows.course (h : d.Follows s segments t) (ht : d.Course t []) : d.Course s segments := by
  induction h with
  | here => exact ht
  | item hn _ ih => exact .item hn (ih ht)
  | entry hn _ ih => exact .entry hn (ih ht)
  | member hn hf _ ih => exact .member hn hf (ih ht)
  | branch hn hu _ ih => exact .branch hn hu (ih ht)

theorem exists_course (h : d.discover = .ok cs) (hc : c ∈ cs) :
    ∃ segments, d.Course d.root segments ∧ c.path = (Path.written segments).raw := by
  obtain ⟨segments, t, hfollows, hshows, hp⟩ := exists_follows h hc
  exact ⟨segments, hfollows.course hshows.course, hp⟩

theorem isPlain_of_isIdentifier {cs : List Char} (h : Schema.isIdentifier cs) :
    ∀ c ∈ cs, Path.isPlain c := by
  cases cs with
  | nil => nofun
  | cons c cs =>
    rw [Schema.isIdentifier, Bool.and_eq_true, List.all_eq_true] at h
    rw [List.forall_mem_cons]
    refine ⟨Path.isPlain_of_word ?_, fun c hc => Path.isPlain_of_word (h.2 c hc)⟩
    grind [Char.isAlphanum]

theorem plain_of_isIdentifier {name : String} (h : Schema.isIdentifier name.toList) :
    (Segment.member name).Plain := by
  refine .member ?_ (isPlain_of_isIdentifier h)
  rintro rfl
  cases h

theorem Course.plain (hl : ∀ u : Schema, u.Within d.root → u.Lawful) (hs : s.Within d.root)
    (h : d.Course s segments) : ∀ step ∈ segments, step.Plain := by
  induction h with
  | leaf => nofun
  | item hn _ ih =>
    refine List.forall_mem_cons.mpr ⟨?_, ih (within_of_node hs hn List.mem_cons_self)⟩
    exact @Segment.Plain.bracket _ ['0'] rfl rfl (List.all_eq_true.mp (by decide))
  | entry hn _ ih =>
    refine List.forall_mem_cons.mpr ⟨?_, ih (within_of_node hs hn List.mem_cons_self)⟩
    exact @Segment.Plain.bracket _ "*key*".toList rfl rfl (List.all_eq_true.mp (by decide))
  | member hn hf _ ih =>
    refine List.forall_mem_cons.mpr ⟨?_, ih (within_of_node hs hn (List.mem_map_of_mem hf))⟩
    exact plain_of_isIdentifier ((hl _ (within_of_resolve hs (resolve_of_node hn rfl))).1 _ hf)
  | branch hn ht _ ih => exact ih (within_of_node hs hn ht)

theorem Course.isWildcard (h : d.Course s segments) : ∀ step ∈ segments, step.isWildcard = false := by
  induction h with
  | leaf => nofun
  | item _ _ ih | entry _ _ ih | member _ _ _ ih => exact List.forall_mem_cons.mpr ⟨rfl, ih⟩
  | branch _ _ _ ih => exact ih

end AvroColumns.Document
