import Mathlib.Data.List.Nodup
import Reentrancy.Proofs.Flow.Layout

/-! Which blocks lead to which. Control passes through the segments of a body in order, so a block
that is reached at all is reached from every block before it that does not leave the function,
the other arm of its own branch apart. -/
namespace Reentrancy

open Relation (TransGen ReflTransGen)

def Exit.GoesOn (exit : Exit) : Prop := exit ≠ .ret ∧ exit ≠ .revert

theorem Exit.Ends.eq_of_goesOn {exit next : Exit} (ends : exit.Ends next) (goes : exit.GoesOn) :
    exit = next := by
  rcases ends with same | left | left
  · exact same
  · exact absurd left goes.1
  · exact absurd left goes.2

@[simp] theorem Exit.targets_goto_eq (target : String) : (goto target).targets = [target] := rfl

@[simp] theorem Exit.targets_branch_eq (condition : Expression) (yes no : String) :
    (branch condition yes no).targets = [yes, no] := rfl

namespace Graph

variable {first second : Graph} {before after : String}

theorem links_append :
    Links (first ++ second) before after ↔ first.Links before after ∨ second.Links before after := by
  simp only [Links, List.mem_append, or_and_right, exists_or]

@[simp] theorem links_nil : ¬Links [] before after := by simp [Links]

@[simp] theorem links_cons {vertex : Vertex} :
    Links (vertex :: first) before after ↔
      (vertex.id = before ∧ after ∈ vertex.exit.targets) ∨ first.Links before after := by
  simp [Links]

theorem Links.source_mem (link : first.Links before after) : before ∈ first.ids := by
  obtain ⟨vertex, member, rfl, _⟩ := link
  exact List.mem_map_of_mem member

/-- Control can get from the first block to the id. -/
def Enters (graph : Graph) (id : String) : Prop :=
  ∃ start, graph.head? = some start ∧ ReflTransGen graph.Links start.id id

end Graph

section Segments

@[simp] theorem outlineGraph_nil : outlineGraph [] = [] := rfl

@[simp] theorem outlineGraph_cons (outline : Outline) (rest : List Outline) :
    outlineGraph (outline :: rest) = ⟨outline.id, outline.exit⟩ :: outlineGraph rest := rfl

variable {segment rest : List Outline}

theorem links_of_mem {outlines : List Outline} {outline : Outline} (member : outline ∈ outlines)
    {target : String} (named : target ∈ outline.exit.targets) :
    (outlineGraph outlines).Links outline.id target :=
  ⟨outline.vertex, List.mem_map_of_mem member, rfl, named⟩

theorem id_mem_outlineGraph {outlines : List Outline} {outline : Outline}
    (member : outline ∈ outlines) : outline.id ∈ (outlineGraph outlines).ids :=
  List.mem_map_of_mem (f := Vertex.id) (List.mem_map_of_mem member)

theorem exists_outline {outlines : List Outline} {before after : String}
    (link : (outlineGraph outlines).Links before after) :
    ∃ (index : Nat) (outline : Outline), outlines[index]? = some outline ∧ outline.id = before ∧
      after ∈ outline.exit.targets := by
  obtain ⟨vertex, member, rfl, named⟩ := link
  obtain ⟨outline, inside, rfl⟩ := List.mem_map.mp member
  obtain ⟨index, located⟩ := List.getElem?_of_mem inside
  exact ⟨index, outline, located, rfl, named⟩

theorem Laid.links_inside {outlines : List Outline} (laid : Laid outlines) {before after : String}
    (link : (outlineGraph outlines).Links before after) : after ∈ (outlineGraph outlines).ids := by
  obtain ⟨index, outline, located, _, named⟩ := exists_outline link
  obtain ⟨_, target, other, found, rfl, _⟩ := laid.jumps located named
  exact id_mem_outlineGraph (List.mem_of_getElem? found)

theorem Segment.links_inside (shape : Segment (Exit.into (outlineGraph rest)) segment)
    {before after : String} (link : (outlineGraph segment).Links before after) :
    after ∈ (outlineGraph segment).ids ∨ ∃ first, rest.head? = some first ∧ after = first.id := by
  obtain ⟨index, outline, located, _, named⟩ := exists_outline link
  obtain ⟨target, other, found, rfl, leads⟩ := shape.jumps located named
  have inside := (List.getElem?_eq_some_iff.mp located).1
  rcases Nat.lt_or_ge target segment.length with here | behind
  · rw [List.getElem?_append_left here] at found
    exact .inl (id_mem_outlineGraph (List.mem_of_getElem? found))
  · have last : target = segment.length := by
      rcases leads with ⟨_, bound⟩ | ⟨_, _, _, _, _, back⟩
      · omega
      · omega
    rw [last, List.getElem?_append_right (Nat.le_refl _), Nat.sub_self, ← List.head?_eq_getElem?]
      at found
    exact .inr ⟨other, found, rfl⟩

end Segments

section Suffix

variable {segment rest : List Outline} (laid : Laid rest)
  (distinct : (outlineGraph (segment ++ rest)).ids.Nodup)

theorem outlineGraph_ids_append (first second : List Outline) :
    (outlineGraph (first ++ second)).ids =
      (outlineGraph first).ids ++ (outlineGraph second).ids := by
  simp [outlineGraph, Graph.ids]

include distinct

theorem links_behind {before after : String} (behind : before ∈ (outlineGraph rest).ids)
    (link : (outlineGraph (segment ++ rest)).Links before after) :
    (outlineGraph rest).Links before after := by
  rw [outlineGraph_append, Graph.links_append] at link
  rw [outlineGraph_ids_append, List.nodup_append] at distinct
  exact link.resolve_left fun here => distinct.2.2 before here.source_mem before behind rfl

theorem links_before {before after : String} (inside : before ∈ (outlineGraph segment).ids)
    (link : (outlineGraph (segment ++ rest)).Links before after) :
    (outlineGraph segment).Links before after := by
  rw [outlineGraph_append, Graph.links_append] at link
  rw [outlineGraph_ids_append, List.nodup_append] at distinct
  exact link.resolve_right fun later => distinct.2.2 before inside before later.source_mem rfl

include laid

theorem stays_behind {before after : String} (behind : before ∈ (outlineGraph rest).ids)
    (path : ReflTransGen (outlineGraph (segment ++ rest)).Links before after) :
    after ∈ (outlineGraph rest).ids ∧ ReflTransGen (outlineGraph rest).Links before after := by
  induction path with
  | refl => exact ⟨behind, .refl⟩
  | tail _ link ih =>
    have onward := links_behind distinct ih.1 link
    exact ⟨laid.links_inside onward, ih.2.tail onward⟩

/-- A path from a segment to a block behind it goes through the first block behind it. -/
theorem enters_behind (shape : Segment (Exit.into (outlineGraph rest)) segment)
    {before after : String} (inside : before ∈ (outlineGraph segment).ids)
    (behind : after ∈ (outlineGraph rest).ids)
    (path : ReflTransGen (outlineGraph (segment ++ rest)).Links before after) :
    ∃ first last, rest.head? = some first ∧ (outlineGraph segment).Links last first.id ∧
      ReflTransGen (outlineGraph rest).Links first.id after := by
  induction path using Relation.ReflTransGen.head_induction_on with
  | refl =>
    rw [outlineGraph_ids_append, List.nodup_append] at distinct
    exact absurd rfl (distinct.2.2 after inside after behind)
  | @head before middle link path ih =>
    have here := links_before distinct inside link
    rcases shape.links_inside here with inner | ⟨first, head, rfl⟩
    · exact ih inner
    · have member : first ∈ rest := List.mem_of_mem_head? head
      exact ⟨first, before, head, here,
        (stays_behind laid distinct (id_mem_outlineGraph member) path).2⟩

end Suffix
def Siblings (outlines : List Outline) (one two : Outline) : Prop :=
  one.side.isSome = true ∧ two.side.isSome = true ∧
    ∃ test, (outlineGraph outlines).Links test one.id ∧ (outlineGraph outlines).Links test two.id

/-- If control goes on after the source and gets to the target at all, it can get from one to the
other. -/
def Passes (outlines : List Outline) (source target : Outline) : Prop :=
  (outlineGraph outlines).Enters target.id → ¬Siblings outlines source target →
    source.exit.GoesOn → TransGen (outlineGraph outlines).Links source.id target.id

section Loops

variable {outlines loop : List Outline} {init header exit : Outline}
  (enter : (outlineGraph outlines).Links init.id header.id)
  (back : ∀ source ∈ loop, source.exit.GoesOn →
    ReflTransGen (outlineGraph outlines).Links source.id header.id)

include enter back

theorem loop_reaches {target : String}
    (reach : TransGen (outlineGraph outlines).Links header.id target) {source : Outline}
    (member : source ∈ init :: header :: loop) (goes : source.exit.GoesOn) :
    TransGen (outlineGraph outlines).Links source.id target := by
  have first : source = init ∨ source = header ∨ source ∈ loop := by simpa using member
  rcases first with rfl | rfl | inside
  · exact .head enter reach
  · exact reach
  · exact TransGen.trans_right (back source inside goes) reach

theorem loop_passes (reach : ∀ target ∈ loop ++ [exit], (outlineGraph outlines).Enters target.id →
      TransGen (outlineGraph outlines).Links header.id target.id) :
    (init :: header :: (loop ++ [exit])).Pairwise (Passes outlines) := by
  have passes {source target : Outline} (here : source ∈ init :: header :: loop)
      (there : target ∈ loop ++ [exit]) : Passes outlines source target :=
    fun enters _ goes => loop_reaches enter back (reach target there enters) here goes
  have later {source target : Outline} (here : source ∈ loop) (there : target ∈ loop ++ [exit]) :=
    passes (.tail _ (.tail _ here)) there
  refine .cons (List.forall_mem_cons.mpr ⟨fun _ _ _ => .single enter, ?_⟩) (.cons ?_ ?_)
  · exact fun target there => passes (.head _) there
  · exact fun target there => passes (.tail _ (.head _)) there
  · refine List.pairwise_append.mpr ⟨?_, List.pairwise_singleton _ _, ?_⟩
    · exact List.pairwise_of_forall_mem_list fun source here target there =>
        later here (List.mem_append_left _ there)
    · exact fun source here target there => later here (List.mem_append_right _ there)

end Loops

/-- If a segment is left for the first block behind it, every block that goes on leads there. -/
def LeadsOut (outlines segment : List Outline) (first : Outline) : Prop :=
  (∃ last, (outlineGraph segment).Links last first.id) → ∀ source ∈ segment,
    source.exit.GoesOn → TransGen (outlineGraph outlines).Links source.id first.id

theorem loop_leadsOut {outlines loop : List Outline} {init header exit first : Outline}
    (enter : (outlineGraph outlines).Links init.id header.id)
    (back : ∀ source ∈ loop, source.exit.GoesOn →
      ReflTransGen (outlineGraph outlines).Links source.id header.id)
    (leave : (outlineGraph outlines).Links header.id exit.id)
    (out : (outlineGraph outlines).Links exit.id first.id) :
    LeadsOut outlines (init :: header :: (loop ++ [exit])) first := by
  intro _ source member goes
  rw [← List.cons_append, ← List.cons_append] at member
  rcases List.mem_append.mp member with inside | last
  · exact loop_reaches enter back (.tail (.single leave) out) inside goes
  · obtain rfl := List.mem_singleton.mp last
    exact .single out

theorem exists_link_of_enters {graph : Graph} {id : String} (enters : graph.Enters id)
    (other : ∀ start, graph.head? = some start → start.id ≠ id) : ∃ before, graph.Links before id := by
  obtain ⟨start, head, path⟩ := enters
  rcases path.cases_tail with same | ⟨before, _, link⟩
  · exact absurd same.symm (other start head)
  · exact ⟨before, link⟩

section Shapes

variable {outlines segment rest : List Outline} (whole : outlines = segment ++ rest)
  (laid : Laid rest) (distinct : (outlineGraph outlines).ids.Nodup)

include whole distinct

theorem apart_of_head {first : Outline} (head : rest.head? = some first) :
    first.id ∉ (outlineGraph segment).ids := by
  intro inside
  rw [whole, outlineGraph_ids_append, List.nodup_append] at distinct
  exact distinct.2.2 _ inside _ (id_mem_outlineGraph (List.mem_of_mem_head? head)) rfl

theorem apart_of_into {target : Outline} (member : target ∈ segment) :
    target.id ∉ (Exit.into (outlineGraph rest)).targets := by
  intro named
  cases rest with
  | nil => cases named
  | cons first others =>
    have same : target.id = first.id := List.mem_singleton.mp named
    exact apart_of_head whole distinct rfl (same ▸ id_mem_outlineGraph member)

include laid

theorem links_within {before : String} {target : Outline} (member : target ∈ segment)
    (link : (outlineGraph outlines).Links before target.id) :
    (outlineGraph segment).Links before target.id := by
  rw [whole, outlineGraph_append, Graph.links_append] at link
  rw [whole, outlineGraph_ids_append, List.nodup_append] at distinct
  exact link.resolve_right fun later =>
    distinct.2.2 _ (id_mem_outlineGraph member) _ (laid.links_inside later) rfl

theorem step_of_enters {id header inner increment exit : String} {condition : Expression}
    {leave : Exit}
    (shape : segment = [⟨id, .goto header, some .init, none⟩,
      ⟨header, .branch condition inner exit, some .header, none⟩, ⟨inner, leave, some .body, none⟩,
      ⟨increment, .goto header, some .increment, none⟩,
      ⟨exit, Exit.into (outlineGraph rest), some .exit, none⟩])
    (enters : (outlineGraph outlines).Enters increment) : increment ∈ leave.targets := by
  have step : ⟨increment, .goto header, some .increment, none⟩ ∈ segment := by simp [shape]
  have single : (outlineGraph segment).ids.Nodup := by
    rw [whole, outlineGraph_ids_append, List.nodup_append] at distinct
    exact distinct.1
  simp only [Graph.ids, shape, outlineGraph_cons, outlineGraph_nil, List.map_cons, List.map_nil,
    List.nodup_cons, List.mem_cons, List.not_mem_nil, or_false, not_or, not_false_eq_true,
    List.nodup_nil, and_self, and_true] at single
  obtain ⟨⟨_, _, notInit, _⟩, ⟨_, notHeader, _⟩, ⟨notInner, _⟩, notExit⟩ := single
  obtain ⟨before, found⟩ := exists_link_of_enters enters fun start head => by
    obtain rfl : ⟨id, .goto header⟩ = start := by simpa [whole, shape] using head
    exact notInit
  have link := links_within whole laid distinct step found
  simp only [shape, outlineGraph_cons, outlineGraph_nil, Graph.links_cons, Graph.links_nil,
    Exit.targets_goto_eq, Exit.targets_branch_eq, List.mem_cons, List.not_mem_nil,
    or_false] at link
  rcases link with ⟨_, same⟩ | ⟨_, same | same⟩ | ⟨_, named⟩ | ⟨_, same⟩ | ⟨_, named⟩
  · exact absurd same.symm notHeader
  · exact absurd same.symm notInner
  · exact absurd same notExit
  · exact named
  · exact absurd same.symm notHeader
  · exact absurd named (apart_of_into whole distinct step)

theorem Segment.passes (shape : Segment (Exit.into (outlineGraph rest)) segment) :
    segment.Pairwise (Passes outlines) ∧
      ∀ first, rest.head? = some first → LeadsOut outlines segment first := by
  have link {outline : Outline} {target : String} (inside : outline ∈ segment)
      (named : target ∈ outline.exit.targets) : (outlineGraph outlines).Links outline.id target :=
    links_of_mem (whole ▸ List.mem_append_left _ inside) named
  have next {first : Outline} (head : rest.head? = some first) :
      first.id ∈ (Exit.into (outlineGraph rest)).targets := by
    obtain ⟨others, rfl⟩ := List.head?_eq_some_iff.mp head
    exact .head _
  have out {exit : Exit} (ends : exit.Ends (Exit.into (outlineGraph rest))) (goes : exit.GoesOn)
      {first : Outline} (head : rest.head? = some first) : first.id ∈ exit.targets :=
    ends.eq_of_goesOn goes ▸ next head
  cases shape with
  | plain ends =>
    refine ⟨List.pairwise_singleton _ _, fun first head _ source member goes => ?_⟩
    obtain rfl := List.mem_singleton.mp member
    exact .single (link member (out ends goes head))
  | @branch id yes no condition onYes onNo yesEnds noEnds =>
    have toYes := link (.head _) (.head _)
    have toNo := link (.head _) (.tail _ (.head _))
    constructor
    · refine .cons ?_ (.cons ?_ (List.pairwise_singleton _ _))
      · intro target member
        rcases List.mem_cons.mp member with rfl | last
        · exact fun _ _ _ => .single toYes
        · obtain rfl := List.mem_singleton.mp last
          exact fun _ _ _ => .single toNo
      · intro target member
        obtain rfl := List.mem_singleton.mp member
        exact fun _ apart => absurd ⟨rfl, rfl, id, toYes, toNo⟩ apart
    · intro first head ⟨last, leaves⟩ source member goes
      rcases List.mem_cons.mp member with rfl | arm
      -- The test goes on through the arm that leads out.
      · have outside := apart_of_head whole distinct head
        simp only [outlineGraph_cons, outlineGraph_nil, Graph.links_cons, Graph.links_nil,
          Exit.targets_branch_eq, Graph.ids, List.map_cons, List.map_nil, List.mem_cons,
          List.not_mem_nil, or_false, not_or] at leaves outside
        rcases leaves with ⟨_, same⟩ | ⟨_, named⟩ | ⟨_, named⟩
        · exact absurd same (not_or.mpr outside.2)
        · exact .tail (.single toYes) (link (.tail _ (.head _)) named)
        · exact .tail (.single toNo) (link (.tail _ (.tail _ (.head _))) named)
      · rcases List.mem_cons.mp arm with rfl | other
        · exact .single (link member (out yesEnds goes head))
        · obtain rfl := List.mem_singleton.mp other
          exact .single (link member (out noEnds goes head))
  | @forLoop id header inner increment exit condition leave ends =>
    let hub : Outline := ⟨header, .branch condition inner exit, some .header, none⟩
    have enter := link (.head _) (.head _)
    have toInner := link (.tail _ (.head _)) (.head _)
    have toExit := link (.tail _ (.head _)) (.tail _ (.head _))
    have again := link (.tail _ (.tail _ (.tail _ (.head _)))) (.head _)
    have onward (named : increment ∈ leave.targets) := link (.tail _ (.tail _ (.head _))) named
    let loop : List Outline :=
      [⟨inner, leave, some .body, none⟩, ⟨increment, .goto header, some .increment, none⟩]
    have back : ∀ source ∈ loop, source.exit.GoesOn →
        ReflTransGen (outlineGraph outlines).Links source.id hub.id := by
      intro source member goes
      rcases List.mem_cons.mp member with rfl | last
      · have named : increment ∈ leave.targets := ends.eq_of_goesOn goes ▸ .head _
        exact .tail (.single (onward named)) again
      · obtain rfl := List.mem_singleton.mp last
        exact .single again
    constructor
    · refine loop_passes enter back fun target member enters => ?_
      rcases List.mem_cons.mp member with rfl | later
      · exact .single toInner
      rcases List.mem_cons.mp later with rfl | last
      · have named := step_of_enters whole laid distinct rfl enters
        exact .tail (.single toInner) (onward named)
      · obtain rfl := List.mem_singleton.mp last
        exact .single toExit
    · intro first head
      exact loop_leadsOut enter back toExit
        (link (.tail _ (.tail _ (.tail _ (.tail _ (.head _))))) (next head))
  | @whileLoop id header inner exit condition leave ends =>
    let hub : Outline := ⟨header, .branch condition inner exit, some .header, none⟩
    have enter := link (.head _) (.head _)
    have toInner := link (.tail _ (.head _)) (.head _)
    have toExit := link (.tail _ (.head _)) (.tail _ (.head _))
    let loop : List Outline := [⟨inner, leave, some .body, none⟩]
    have back : ∀ source ∈ loop, source.exit.GoesOn →
        ReflTransGen (outlineGraph outlines).Links source.id hub.id := by
      intro source member goes
      obtain rfl := List.mem_singleton.mp member
      have named : header ∈ leave.targets := ends.eq_of_goesOn goes ▸ .head _
      exact .single (link (.tail _ (.tail _ (.head _))) named)
    constructor
    · refine loop_passes enter back fun target member _ => ?_
      rcases List.mem_cons.mp member with rfl | last
      · exact .single toInner
      · obtain rfl := List.mem_singleton.mp last
        exact .single toExit
    · intro first head
      exact loop_leadsOut enter back toExit (link (.tail _ (.tail _ (.tail _ (.head _)))) (next head))

end Shapes
section Whole

variable {segment rest : List Outline}

theorem links_append_right {before after : String}
    (link : (outlineGraph rest).Links before after) :
    (outlineGraph (segment ++ rest)).Links before after := by
  rw [outlineGraph_append, Graph.links_append]
  exact .inr link

theorem Segment.enters_behind (shape : Segment (Exit.into (outlineGraph rest)) segment)
    (laid : Laid rest) (distinct : (outlineGraph (segment ++ rest)).ids.Nodup) {target : Outline}
    (member : target ∈ rest) (enters : (outlineGraph (segment ++ rest)).Enters target.id) :
    ∃ first, rest.head? = some first ∧ (∃ last, (outlineGraph segment).Links last first.id) ∧
      ReflTransGen (outlineGraph rest).Links first.id target.id := by
  obtain ⟨start, head, path⟩ := enters
  have inside : start.id ∈ (outlineGraph segment).ids := by
    obtain ⟨entry, others, rfl⟩ : ∃ entry others, segment = entry :: others := by
      cases shape <;> exact ⟨_, _, rfl⟩
    obtain rfl := Option.some.inj head
    exact .head _
  obtain ⟨first, last, front, link, onward⟩ :=
    Reentrancy.enters_behind laid distinct shape inside (id_mem_outlineGraph member) path
  exact ⟨first, front, ⟨last, link⟩, onward⟩

theorem Laid.passes {outlines : List Outline} (laid : Laid outlines)
    (distinct : (outlineGraph outlines).ids.Nodup) : outlines.Pairwise (Passes outlines) := by
  induction laid with
  | nil => exact .nil
  | @cons segment rest shape later ih =>
    obtain ⟨inside, out⟩ := shape.passes rfl later distinct
    have behind : (outlineGraph rest).ids.Nodup := by
      rw [outlineGraph_ids_append, List.nodup_append] at distinct
      exact distinct.2.1
    have lift {before after : String} (path : ReflTransGen (outlineGraph rest).Links before after) :
        ReflTransGen (outlineGraph (segment ++ rest)).Links before after :=
      path.lift id fun _ _ => links_append_right
    refine List.pairwise_append.mpr ⟨inside, ?_, ?_⟩
    · refine (ih behind).imp_of_mem fun {source target} _ member passes enters apart goes => ?_
      obtain ⟨first, head, _, path⟩ := shape.enters_behind later distinct member enters
      have alone : ¬Siblings rest source target := by
        rintro ⟨one, two, test, left, right⟩
        exact apart ⟨one, two, test, links_append_right left, links_append_right right⟩
      have entered : (outlineGraph rest).Enters target.id :=
        ⟨first.vertex, by simp [outlineGraph, head], path⟩
      exact (passes entered alone goes).lift id fun _ _ => links_append_right
    · intro source here target there enters _ goes
      obtain ⟨first, head, left, path⟩ := shape.enters_behind later distinct there enters
      exact (out first head left source here goes).trans_left (lift path)

/-- Control goes on after the block, or the block is an arm of a branch or the body of a loop, which
may leave the function while the rest is still reached. -/
def Outline.GoesOnOrInner (outline : Outline) : Prop :=
  outline.exit.GoesOn ∨ outline.side.isSome = true ∨ outline.role = some .body

theorem Segment.goesOn (shape : Segment (Exit.into (outlineGraph rest)) segment) :
    segment.Pairwise (fun source _ => source.GoesOnOrInner) ∧
      ∀ first last, (outlineGraph segment).Links last first → rest ≠ [] →
        ∀ source ∈ segment, source.GoesOnOrInner := by
  have next (more : rest ≠ []) : (Exit.into (outlineGraph rest)).GoesOn := by
    obtain ⟨first, others, rfl⟩ := List.exists_cons_of_ne_nil more
    exact ⟨nofun, nofun⟩
  cases shape with
  | @plain id exit ends =>
    refine ⟨List.pairwise_singleton _ _, fun first last link _ source member => ?_⟩
    obtain rfl := List.mem_singleton.mp member
    obtain ⟨vertex, inside, _, named⟩ := link
    obtain rfl := List.mem_singleton.mp inside
    refine .inl ⟨?_, ?_⟩
    · rintro rfl
      cases named
    · rintro rfl
      cases named
  | branch =>
    exact ⟨by simp [Outline.GoesOnOrInner, Exit.GoesOn], fun _ _ _ _ => by
      simp [Outline.GoesOnOrInner, Exit.GoesOn]⟩
  | forLoop | whileLoop =>
    refine ⟨by simp [Outline.GoesOnOrInner, Exit.GoesOn], fun _ _ _ more => ?_⟩
    have onward := next more
    simpa [Outline.GoesOnOrInner, Exit.GoesOn] using onward

/-- Before a block that control gets to, only arms of branches and bodies of loops leave. -/
theorem Laid.goesOn {outlines : List Outline} (laid : Laid outlines)
    (distinct : (outlineGraph outlines).ids.Nodup) :
    outlines.Pairwise fun source target =>
      (outlineGraph outlines).Enters target.id → source.GoesOnOrInner := by
  induction laid with
  | nil => exact .nil
  | @cons segment rest shape later ih =>
    obtain ⟨inside, out⟩ := shape.goesOn
    have behind : (outlineGraph rest).ids.Nodup := by
      rw [outlineGraph_ids_append, List.nodup_append] at distinct
      exact distinct.2.1
    refine List.pairwise_append.mpr ⟨?_, ?_, ?_⟩
    · refine inside.imp ?_
      intro source target goes _
      exact goes
    · refine (ih behind).imp_of_mem fun {source target} _ member goes enters => goes ?_
      obtain ⟨first, head, _, path⟩ := shape.enters_behind later distinct member enters
      exact ⟨first.vertex, by simp [outlineGraph, head], path⟩
    · intro source here target there enters
      obtain ⟨first, _, ⟨last, link⟩, _⟩ := shape.enters_behind later distinct there enters
      exact out first.id last link (List.ne_nil_of_mem there) source here

theorem Laid.head_whole {outlines : List Outline} (laid : Laid outlines) {first : Outline}
    (head : outlines.head? = some first) : first.side = none := by
  cases laid with
  | nil => cases head
  | cons shape _ =>
    cases shape <;>
    · obtain rfl := Option.some.inj head
      rfl

theorem Segment.arm (shape : Segment (Exit.into (outlineGraph rest)) segment)
    (distinct : (outlineGraph (segment ++ rest)).ids.Nodup) {arm : Outline} (member : arm ∈ segment)
    (side : arm.side.isSome = true) :
    ∃ test, ∀ before, (outlineGraph segment).Links before arm.id ↔ before = test := by
  cases shape with
  | @branch id yes no condition onYes onNo yesEnds noEnds =>
    have behind := apart_of_into rfl distinct member
    have named : arm.id = yes ∨ arm.id = no := by
      rcases List.mem_cons.mp member with rfl | other
      · cases side
      · simpa using List.mem_map_of_mem (f := Outline.id) other
    refine ⟨id, fun before => ?_⟩
    simp
    constructor
    · rintro (⟨same, _⟩ | ⟨_, leads⟩ | ⟨_, leads⟩)
      · exact same.symm
      · exact absurd (yesEnds.targets leads ▸ leads) behind
      · exact absurd (noEnds.targets leads ▸ leads) behind
    · rintro rfl
      exact .inl ⟨rfl, named⟩
  | plain =>
    obtain rfl := List.mem_singleton.mp member
    cases side
  | forLoop =>
    simp only [List.mem_cons, List.not_mem_nil, or_false] at member
    rcases member with rfl | rfl | rfl | rfl | rfl <;> cases side
  | whileLoop =>
    simp only [List.mem_cons, List.not_mem_nil, or_false] at member
    rcases member with rfl | rfl | rfl | rfl <;> cases side

theorem Laid.arm {outlines : List Outline} (laid : Laid outlines)
    (distinct : (outlineGraph outlines).ids.Nodup) {arm : Outline} (member : arm ∈ outlines)
    (side : arm.side.isSome = true) :
    ∃ test, ∀ before, (outlineGraph outlines).Links before arm.id ↔ before = test := by
  induction laid with
  | nil => cases member
  | @cons segment rest shape later ih =>
    rcases List.mem_append.mp member with here | behind
    · obtain ⟨test, only⟩ := shape.arm distinct here side
      refine ⟨test, fun before => (Iff.intro ?_ ?_).trans (only before)⟩
      · exact links_within rfl later distinct here
      · intro link
        rw [outlineGraph_append, Graph.links_append]
        exact .inl link
    · have apart : (outlineGraph rest).ids.Nodup := by
        rw [outlineGraph_ids_append, List.nodup_append] at distinct
        exact distinct.2.1
      obtain ⟨test, only⟩ := ih apart behind
      refine ⟨test, fun before => (Iff.intro ?_ links_append_right).trans (only before)⟩
      intro link
      rw [outlineGraph_append, Graph.links_append] at link
      refine link.resolve_left fun early => ?_
      -- A segment leads behind itself only to a first block, which is no arm.
      rcases shape.links_inside early with inside | ⟨first, head, same⟩
      · rw [outlineGraph_ids_append, List.nodup_append] at distinct
        exact distinct.2.2 _ inside _ (id_mem_outlineGraph behind) rfl
      · have ids : (outlineGraph rest).ids = rest.map Outline.id := by
          simp [outlineGraph, Graph.ids, Outline.vertex]
        obtain rfl := List.inj_on_of_nodup_map (ids ▸ apart) behind (List.mem_of_mem_head? head) same
        rw [later.head_whole head] at side
        cases side

theorem Segment.arm_exit {next : Exit} {segment : List Outline} (shape : Segment next segment)
    {arm : Outline} (member : arm ∈ segment) (side : arm.side.isSome = true) {id : String}
    (named : id ∈ arm.exit.targets) : arm.exit = next := by
  cases shape with
  | plain =>
    obtain rfl := List.mem_singleton.mp member
    cases side
  | branch yesEnds noEnds =>
    simp only [List.mem_cons, List.not_mem_nil, or_false] at member
    rcases member with rfl | rfl | rfl
    · cases side
    · exact yesEnds.targets named
    · exact noEnds.targets named
  | forLoop =>
    simp only [List.mem_cons, List.not_mem_nil, or_false] at member
    rcases member with rfl | rfl | rfl | rfl | rfl <;> cases side
  | whileLoop =>
    simp only [List.mem_cons, List.not_mem_nil, or_false] at member
    rcases member with rfl | rfl | rfl | rfl <;> cases side

theorem Laid.arm_leads {outlines : List Outline} (laid : Laid outlines) {arm : Outline}
    (member : arm ∈ outlines) (side : arm.side.isSome = true) {id : String}
    (named : id ∈ arm.exit.targets) : ∃ target ∈ outlines, target.id = id ∧ target.side = none := by
  induction laid with
  | nil => cases member
  | @cons segment rest shape later ih =>
    rcases List.mem_append.mp member with here | behind
    · rw [shape.arm_exit here side named] at named
      cases rest with
      | nil => cases named
      | cons first others =>
        refine ⟨first, by simp, ?_, later.head_whole rfl⟩
        exact (List.mem_singleton.mp named).symm
    · obtain ⟨target, found, same, whole⟩ := ih behind
      exact ⟨target, List.mem_append_right _ found, same, whole⟩

end Whole
end Reentrancy
