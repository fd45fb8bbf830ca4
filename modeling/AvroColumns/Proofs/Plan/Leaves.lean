import AvroColumns.Proofs.Plan.Discovery
import AvroColumns.Proofs.Schema.References

namespace AvroColumns

def Segment.isMember : Segment → Bool
  | .member _ => true
  | _ => false

namespace Document

open Outcome

variable {d : Document} {s t u : Schema} {segments : List Segment} {depth : Nat} {site : Site}
  {cs : List Column} {c : Column} {m : Mark} {marks : List Mark} {kind : LeafKind} {text : String}

theorem Linked.node (hd : d.Linked) (hs : s.Within d.root) : ∃ n, d.node s = .ok n := by
  cases s with
  | ref name =>
    obtain ⟨D, hD⟩ := hd name hs
    exact ⟨_, node_of_follow hD⟩
  | _ => exact ⟨_, rfl⟩

theorem Linked.columnTarget (hd : d.Linked) (hs : s.Within d.root) :
    ∃ target, d.columnTarget? s = .ok target := by
  obtain ⟨n, hn⟩ := hd.node hs
  exact ⟨_, bind_eq_ok_iff.mpr ⟨n, hn, rfl⟩⟩

theorem Linked.leafColumns (hd : d.Linked) (hs : s.Within d.root) (site : Site) :
    ∃ own, d.leafColumns site s = .ok own := by
  obtain ⟨t, ht⟩ : ∃ t, d.resolve s = .ok t := by
    cases s with
    | ref name =>
      obtain ⟨D, hD⟩ := hd name hs
      exact ⟨_, map_eq_ok_iff.mpr ⟨D, hD, rfl⟩⟩
    | _ => exact ⟨_, rfl⟩
  obtain ⟨target, htarget⟩ := hd.columnTarget hs
  have htarget' : d.columnTarget? t = .ok target := by
    rwa [columnTarget?, ← node_of_resolve ht]
  rw [Document.leafColumns, ht, ok_bind, htarget', ok_bind]
  cases target <;> exact ⟨_, rfl⟩

theorem Linked.unionLeaves (hd : d.Linked) {members : List Schema}
    (hs : ∀ u ∈ members, u.Within d.root) (site : Site) :
    ∃ own, d.unionLeaves site members = .ok own := by
  have hkeep (u : Schema) (hu : u ∈ members) :
      ∃ keep, (do return (← d.columnTarget? u).isSome : Except UnknownType Bool) = .ok keep := by
    obtain ⟨target, ht⟩ := hd.columnTarget (hs u hu)
    exact ⟨_, bind_eq_ok_iff.mpr ⟨target, ht, rfl⟩⟩
  obtain ⟨leaves, hl⟩ : ∃ leaves, members.filterM (fun u => return (← d.columnTarget? u).isSome) =
      .ok leaves :=
    ⟨_, filterM_eq_ok_iff.mpr ⟨hkeep, rfl⟩⟩
  rw [Document.unionLeaves, hl, ok_bind]
  match leaves with
  | [] => exact ⟨_, rfl⟩
  | [u] => exact hd.leafColumns (hs u ((mem_leaves_iff hl).mp List.mem_cons_self).1) site
  | _ :: _ :: _ => exact ⟨_, rfl⟩

theorem Linked.ownColumns (hd : d.Linked) (hs : s.Within d.root) (site : Site) :
    ∃ own, d.ownColumns site s = .ok own := by
  obtain ⟨n, hn⟩ := hd.node hs
  rw [Document.ownColumns, hn, ok_bind]
  cases n with
  | record | array | map => exact ⟨_, rfl⟩
  | union members => exact hd.unionLeaves (fun u hu => within_of_node hs hn hu) site
  | fixed | leaf => exact hd.leafColumns hs site

theorem Linked.columnsAt (hd : d.Linked) (depth : Nat) (hs : s.Within d.root) (site : Site) :
    ∃ cs, d.columnsAt depth site s = .ok cs := by
  induction depth, s using next_induction (d := d) generalizing site with
  | h depth s ih =>
    have hbelow (p : Mark × Schema) (hp : p ∈ d.nexts s) :
        ∃ cs, d.columnsBelow depth site p = .ok cs := by
      have hm : d.Next s p.1 p.2 := mem_nexts_iff.mp hp
      rcases Nat.lt_or_ge depth p.1.cost with hlt | hle
      · exact ⟨[], columnsBelow_eq_ok_iff.mpr (.inr ⟨hlt, rfl⟩)⟩
      · obtain ⟨rest, rfl⟩ := Nat.exists_eq_add_of_le hle
        rw [columnsBelow_of_cost rfl]
        exact ih p.1 p.2 rest hm rfl (hm.follows.within hs) _
    obtain ⟨own, hown⟩ := hd.ownColumns hs site
    obtain ⟨below, hbelow⟩ := exists_mapM hbelow
    rw [columnsAt_eq, hown, ok_bind, hbelow, ok_bind]
    exact ⟨_, rfl⟩

theorem records_eq (marks : List Mark) :
    Mark.records marks = (marks.flatMap Mark.segments).countP Segment.isMember := by
  induction marks with
  | nil => rfl
  | cons m marks ih =>
    rw [Mark.records_cons, ih, List.flatMap_cons, List.countP_append]
    cases m <;> rfl

theorem Next.inside_or_record (hs : ∀ members, s ≠ .union members) (h : d.Next s m t) :
    (∃ r, d.node s = .ok (.record r)) ∨ d.NextInside s m t := by
  cases h with
  | member hn => exact .inl ⟨_, hn⟩
  | item hn => exact .inr (.item hn)
  | entry hn => exact .inr (.entry hn)
  | inside hn => exact absurd (eq_union_of_node hn) (hs _)

theorem Follows.exists_unfolds (hl : ∀ u : Schema, u.Within d.root → u.Lawful) (hs : s.Within d.root)
    (h : d.Follows s segments t) (ht : d.Mapped t) :
    ∃ marks u, d.Unfolds s marks u ∧ marks.flatMap Mark.segments = segments ∧ d.HasColumn u := by
  induction h with
  | here => exact ⟨[], _, .here, rfl, .leaf ht⟩
  | item hn _ ih =>
    obtain ⟨marks, u, hu, rfl, hc⟩ := ih (within_of_node hs hn List.mem_cons_self) ht
    exact ⟨.item :: marks, u, .next (.item hn) hu, rfl, hc⟩
  | entry hn _ ih =>
    obtain ⟨marks, u, hu, rfl, hc⟩ := ih (within_of_node hs hn List.mem_cons_self) ht
    exact ⟨.entry :: marks, u, .next (.entry hn) hu, rfl, hc⟩
  | @member s r f _ _ hn hf _ ih =>
    obtain ⟨marks, u, hu, rfl, hc⟩ := ih (within_of_node hs hn (List.mem_map_of_mem hf)) ht
    exact ⟨.member f.name :: marks, u, .next (.member hn hf) hu, rfl, hc⟩
  | @branch s members v _ _ hn hv _ ih =>
    obtain ⟨marks, u, hu, rfl, hc⟩ := ih (within_of_node hs hn hv) ht
    have hflat (ms : List Schema) : v ≠ .union ms := by
      rw [eq_union_of_node hn] at hs
      exact Schema.ne_union_of_unionDefect? (hl _ hs) hv ms
    cases hu with
    | here =>
      rcases hc with hm | ⟨hn', -⟩
      · exact ⟨[], s, .here, rfl, .member hn hv hm⟩
      · exact absurd (eq_union_of_node hn') (hflat _)
    | next hm hu =>
      rcases hm.inside_or_record hflat with ⟨r, hr⟩ | hin
      · exact ⟨_, u, .next (.inside hn hv (.tagged hr)) (.next hm hu), rfl, hc⟩
      · exact ⟨_, u, .next (.inside hn hv hin) hu, rfl, hc⟩

theorem exists_target (hnull : kind ≠ .null) (hduration : kind ≠ .duration) :
    ∃ target, kind.target? = some target := by
  cases kind with
  | null => exact absurd rfl hnull
  | duration => exact absurd rfl hduration
  | _ => exact ⟨_, rfl⟩

/-- Discovery succeeds if every reference leads to a type. The path of each column then leads to what the
column shows, and a path leads to each leaf that is neither null nor a duration and lies inside at most as
many records as are entered. -/
theorem discover_leaves (h : ofText text = .ok d) (hd : d.Linked) :
    ∃ cs, d.discover = .ok cs ∧
      (∀ c ∈ cs, ∃ path t, Path.compile c.path = .ok path ∧
        (∀ step ∈ path.segments, step.isWildcard = false) ∧
        d.Follows d.root path.segments t ∧ d.Shows t c.target) ∧
      ∀ segments t kind, d.Follows d.root segments t → d.Leaf t kind → kind ≠ .null → kind ≠ .duration →
        segments.countP Segment.isMember ≤ recordDepth →
          ∃ c ∈ cs, ∃ path, Path.compile c.path = .ok path ∧ path.segments = segments := by
  have hl (u : Schema) (hu : u.Within d.root) : u.Lawful := lawful_of_ofText h hu
  have hcompile {segments : List Segment} (hcourse : d.Course d.root segments) :=
    Path.compile_written (hcourse.plain hl .refl)
  obtain ⟨cs, hcs⟩ := hd.columnsAt recordDepth .refl ⟨"$", "$"⟩
  refine ⟨cs, hcs, ?_, ?_⟩
  · intro c hc
    obtain ⟨segments, t, ht, hshows, hp⟩ := exists_follows hcs hc
    have hcourse := ht.course hshows.course
    exact ⟨.written segments, t, hp ▸ hcompile hcourse, hcourse.isWildcard, ht, hshows⟩
  · intro segments t kind ht hk hnull hduration hdepth
    obtain ⟨target, htarget⟩ := exists_target hnull hduration
    have hmapped : d.Mapped t := ⟨kind, target, hk, htarget⟩
    obtain ⟨marks, u, hu, rfl, hcolumn⟩ := ht.exists_unfolds hl .refl hmapped
    obtain ⟨own, hown⟩ := hd.ownColumns (hu.follows.within .refl) (Site.along ⟨"$", "$"⟩ marks)
    rcases eq_of_ownColumns hown with ⟨-, hnot⟩ | ⟨c, rfl, -, hpath, -⟩
    · exact absurd hcolumn hnot
    · refine ⟨c, ?_, .written (marks.flatMap Mark.segments), ?_, rfl⟩
      · rw [mem_columnsAt_iff hcs]
        exact ⟨marks, u, [c], hu, (records_eq marks).trans_le hdepth, hown, List.mem_cons_self⟩
      · rw [hpath, path_along_root]
        exact hcompile (ht.course hmapped.course)

def listed : RecordType Schema :=
  ⟨⟨"", "N"⟩, [⟨"next", [], .union [.primitive .null, .ref ⟨"", "N"⟩], none⟩,
    ⟨"v", [], .union [.primitive .int, .primitive .string], none⟩]⟩

def listedText : String :=
  (Json.obj [("fields", .arr [
      .obj [("name", .str "next"), ("type", .arr [.str "null", .str "N"])],
      .obj [("name", .str "v"), ("type", .arr [.str "int", .str "string"])]]),
    ("name", .str "N"), ("type", .str "record")]).text

theorem discover_leaves_listed :
    ofText listedText = .ok (ofSchema (.record listed)) ∧ (ofSchema (.record listed)).Linked ∧
      ∃ cs, (ofSchema (.record listed)).discover = .ok cs ∧
        ∃ c ∈ cs, ∃ path, Path.compile c.path = .ok path ∧
          path.segments = List.replicate 31 (.member "next") ++ [.member "v"] := by
  let d := ofSchema (.record listed)
  have htext : ofText listedText = .ok d := by cbv
  have href : d.node (.ref ⟨"", "N"⟩) = .ok (.record listed) := rfl
  have hlinked : d.Linked := by
    intro name hw
    rcases hw.eq_or_part with h | ⟨t, ht, hw⟩
    · cases h
    rcases List.mem_pair.mp ht with rfl | rfl
    · rcases hw.eq_or_part with h | ⟨t, ht, hw⟩
      · cases h
      rcases List.mem_pair.mp ht with rfl | rfl
      · cases hw.of_parts_eq_nil rfl
      · cases hw.of_parts_eq_nil rfl
        exact ⟨.record listed, rfl⟩
    · rcases hw.eq_or_part with h | ⟨t, ht, hw⟩
      · cases h
      rcases List.mem_pair.mp ht with rfl | rfl <;> cases hw.of_parts_eq_nil rfl
  have hfollows (k : Nat) (s : Schema) (hs : d.node s = .ok (.record listed)) :
      d.Follows s (List.replicate k (.member "next") ++ [.member "v"]) (.primitive .int) := by
    induction k generalizing s with
    | zero =>
      refine .member hs (List.mem_cons_of_mem _ List.mem_cons_self) ?_
      exact .branch rfl List.mem_cons_self .here
    | succ k ih =>
      refine .member hs List.mem_cons_self ?_
      exact .branch rfl (List.mem_cons_of_mem _ List.mem_cons_self) (ih _ href)
  obtain ⟨cs, hcs, -, hleaves⟩ := discover_leaves htext hlinked
  refine ⟨htext, hlinked, cs, hcs, ?_⟩
  exact hleaves _ _ .int (hfollows 31 _ rfl) ⟨_, rfl, rfl⟩ (by simp) (by simp) (by decide)

end Document

end AvroColumns
