import Mathlib.Data.List.Nodup
import Reentrancy.Proofs.Ssa.Definedness

/-! Where phis are placed. Edges into a block bring in versions that were defined in different
blocks, so they differ; and a block that writes more, or reads more, does not lose a phi. -/
namespace Reentrancy

section LatestWrites

variable {name : String}

theorem mem_of_latestWrites {blocks : List Block} {version : Nat}
    (found : (latestWrites blocks).get? name = some version) :
    ∃ block ∈ blocks, block.versions.writes.get? name = some version := by
  rw [latestWrites_eq_foldl] at found
  suffices general : ∀ early : Table Nat, (blocks.foldl mergeWrites early).get? name = some version →
      early.get? name = some version ∨
        ∃ block ∈ blocks, block.versions.writes.get? name = some version by
    exact (general _ found).resolve_left (by simp)
  clear found
  induction blocks with
  | nil => exact fun early found => .inl found
  | cons block rest ih =>
    intro early found
    rcases ih (mergeWrites early block) found with merged | ⟨other, inside, written⟩
    · rw [get?_mergeWrites] at merged
      cases writes : block.versions.writes.get? name with
      | none =>
        rw [writes] at merged
        exact .inl merged
      | some latest =>
        rw [writes] at merged
        obtain rfl := Option.some.inj merged
        rcases Nat.le_total (early.version name) latest with below | above
        · exact .inr ⟨block, List.mem_cons_self, by rw [writes, Nat.max_eq_right below]⟩
        · rw [Nat.max_eq_left above]
          unfold Table.version at above ⊢
          cases known : early.get? name with
          | some version => exact .inl rfl
          | none =>
            rw [known] at above
            obtain rfl : latest = 0 := Nat.le_zero.mp above
            exact .inr ⟨block, List.mem_cons_self, writes⟩
    · exact .inr ⟨other, List.mem_cons_of_mem _ inside, written⟩

theorem latestWrites_isSome {blocks : List Block} {block : Block} (inside : block ∈ blocks)
    (written : (block.versions.writes.get? name).isSome = true) :
    ((latestWrites blocks).get? name).isSome = true := by
  rw [latestWrites_eq_foldl]
  suffices general : ∀ early : Table Nat, (early.get? name).isSome = true ∨ block ∈ blocks →
      ((blocks.foldl mergeWrites early).get? name).isSome = true by
    exact general _ (.inr inside)
  clear inside
  induction blocks with
  | nil => exact fun early known => known.resolve_right (by simp)
  | cons first rest ih =>
    intro early known
    refine ih (mergeWrites early first) ?_
    rw [get?_mergeWrites]
    rcases known with early | here
    · left
      cases first.versions.writes.get? name with
      | none => exact early
      | some version => rfl
    · rcases List.mem_cons.mp here with rfl | later
      · left
        obtain ⟨version, writes⟩ := Option.isSome_iff_exists.mp written
        rw [writes]
        rfl
      · exact .inr later

end LatestWrites

section Edges

variable {blocks : List Block} (closed : (graphOf blocks).Closed) (laid : Laid (outlinesOf blocks))
  {index : Nat} {target : Block} (located : blocks[index]? = some target) {edge : Incoming}
  (member : edge ∈ incoming blocks (graphOf blocks) index)

include closed located member

theorem incoming_source : ∃ source, blocks[edge.position]? = some source ∧
    source.id = edge.id ∧ target.id ∈ source.exit.targets := by
  have known : edge.id ∈ (graphOf blocks).predecessors ((graphOf blocks).idAt index) := by
    rw [← incoming_ids closed blocks index]
    exact List.mem_map_of_mem member
  have named : (graphOf blocks).idAt index = target.id := by
    simp [Graph.idAt, getElem?_graphOf located, Block.vertex]
  rw [named] at known
  obtain ⟨vertex, inside, same, leads⟩ := closed.mem_predecessors.mp known
  obtain ⟨place, found⟩ := List.getElem?_of_mem inside
  have position := (mem_incoming member).1
  rw [← same, closed.position?_id found] at position
  obtain rfl := Option.some.inj position
  obtain ⟨source, there, rfl⟩ : ∃ source, blocks[edge.position]? = some source ∧
      source.vertex = vertex := by simpa [graphOf] using found
  exact ⟨source, there, same, leads⟩

include laid

theorem incoming_order :
    edge.position < index ∧ (graphOf blocks).backTarget? edge.position ≠ some index ∨
      Rounds (outlinesOf blocks) edge.position index ∧
        (graphOf blocks).backTarget? edge.position = some index := by
  obtain ⟨source, there, _, leads⟩ := incoming_source closed located member
  have exit : (graphOf blocks).exitAt edge.position = source.exit := by
    simp [Graph.exitAt, getElem?_graphOf there, Block.vertex]
  rcases links_order closed laid there located leads with before | rounds
  · refine .inl ⟨before, fun back => ?_⟩
    unfold Graph.backTarget? at back
    split at back
    · have reached := (Option.filter_eq_some_iff.mp back).2
      rw [decide_eq_true_eq] at reached
      omega
    · cases back
  · refine .inr ⟨rounds, ?_⟩
    obtain ⟨headed, _, _, ended, jumps, inside⟩ := rounds
    obtain rfl := Option.some.inj (headed.symm.trans (getElem?_outlinesOf located))
    obtain rfl := Option.some.inj (ended.symm.trans (getElem?_outlinesOf there))
    have jump : source.exit = .goto target.id := jumps
    have position : (graphOf blocks).position? target.id = some index :=
      closed.position?_id (getElem?_graphOf located)
    rw [Graph.backTarget?, exit, jump]
    simp only [position]
    exact Option.filter_eq_some_iff.mpr ⟨rfl, by rw [decide_eq_true_eq]; omega⟩

theorem incoming_origin (signed : ∀ block ∈ blocks, block.Signed) {name : String} {version : Nat}
    (found : edge.writes.get? name = some version) :
    ∃ (place : Nat) (block : Block), blocks[place]? = some block ∧
      ⟨name, version⟩ ∈ block.instructions.flatMap Instruction.defs ∧
      (place = edge.position ∧ place < index ∨
        Rounds (outlinesOf blocks) edge.position index ∧ index < place) := by
  rw [(mem_incoming member).2] at found
  rcases incoming_order closed laid located member with ⟨before, plain⟩ | ⟨rounds, back⟩
  · rw [if_neg plain] at found
    obtain ⟨source, there, _⟩ := incoming_source closed located member
    rw [there] at found
    have own := (signed source (List.mem_of_getElem? there)).own name version found
    exact ⟨edge.position, source, there, own, .inl ⟨rfl, before⟩⟩
  · rw [if_pos back] at found
    obtain ⟨block, inside, written⟩ := mem_of_latestWrites found
    obtain ⟨offset, place⟩ := List.getElem?_of_mem inside
    rw [List.getElem?_drop, List.getElem?_take] at place
    split at place
    next bound =>
      have own := (signed block (List.mem_of_getElem? place)).own name version written
      exact ⟨index + 1 + offset, block, place, own, .inr ⟨rounds, by omega⟩⟩
    next => cases place

end Edges

theorem place_unique {blocks : List Block} (once : (defsOf blocks).Nodup) {first second : Nat}
    {one two : Block} (here : blocks[first]? = some one) (there : blocks[second]? = some two)
    {defined : Variable} (left : defined ∈ one.instructions.flatMap Instruction.defs)
    (right : defined ∈ two.instructions.flatMap Instruction.defs) : first = second := by
  have whole : defsOf blocks =
      blocks.flatMap fun block => block.instructions.flatMap Instruction.defs :=
    List.flatMap_assoc
  rw [whole, List.nodup_flatMap] at once
  obtain ⟨low, rfl⟩ := List.getElem?_eq_some_iff.mp here
  obtain ⟨high, rfl⟩ := List.getElem?_eq_some_iff.mp there
  rcases Nat.lt_trichotomy first second with before | same | behind
  · exact (List.pairwise_iff_getElem.mp once.2 first second low high before left right).elim
  · exact same
  · exact (List.pairwise_iff_getElem.mp once.2 second first high low behind right left).elim

section Placement

theorem incoming_distinct {blocks : List Block} (closed : (graphOf blocks).Closed)
    (laid : Laid (outlinesOf blocks)) (signed : ∀ block ∈ blocks, block.Signed)
    (once : (defsOf blocks).Nodup) {index : Nat} {target : Block}
    (located : blocks[index]? = some target) (name : String) :
    ((incoming blocks (graphOf blocks) index).filterMap fun edge =>
      edge.writes.get? name).Nodup := by
  have apart : (incoming blocks (graphOf blocks) index).Pairwise fun one two => one.id ≠ two.id := by
    have ids : ((incoming blocks (graphOf blocks) index).map (·.id)).Nodup := by
      rw [incoming_ids closed, closed.predecessors_eq]
      exact closed.distinct.sublist (List.filter_sublist.map _)
    exact List.pairwise_map.mp ids
  refine List.pairwise_filterMap.mpr (apart.imp_of_mem fun {one two} here there differ => ?_)
  rintro version left _ right rfl
  refine differ ?_
  have same (position : one.position = two.position) : one.id = two.id := by
    obtain ⟨first, firstAt, named, _⟩ := incoming_source closed located here
    obtain ⟨second, secondAt, known, _⟩ := incoming_source closed located there
    rw [position, secondAt] at firstAt
    rw [← named, ← known, Option.some.inj firstAt]
  obtain ⟨place, block, found, defined, origin⟩ :=
    incoming_origin closed laid located here signed left
  obtain ⟨other, home, located, again, source⟩ :=
    incoming_origin closed laid located there signed right
  obtain rfl := place_unique once found located defined again
  rcases origin with ⟨rfl, before⟩ | ⟨rounds, behind⟩
  · rcases source with ⟨equal, _⟩ | ⟨_, behind⟩
    · exact same equal
    · omega
  · rcases source with ⟨_, before⟩ | ⟨again, _⟩
    · omega
    · have distinct := closed.distinct
      rw [← outlineGraph_outlinesOf] at distinct
      exact same (laid.rounds_unique distinct rounds again)

structure Block.Grows (old new : Block) : Prop where
  writes : ∀ name, (old.versions.writes.get? name).isSome = true →
    (new.versions.writes.get? name).isSome = true
  reads : ∀ name, old.accesses.reads.contains name = true →
    new.accesses.reads.contains name = true

def Incoming.Grows (old new : Incoming) : Prop :=
  ∀ name, (old.writes.get? name).isSome = true → (new.writes.get? name).isSome = true

theorem exists_grown {olds news : List Block} (grown : List.Forall₂ Block.Grows olds news)
    {index : Nat} {old : Block} (located : olds[index]? = some old) :
    ∃ new, news[index]? = some new ∧ old.Grows new := by
  induction grown generalizing index with
  | nil => cases located
  | @cons first new _ _ here _ ih =>
    cases index with
    | zero =>
      obtain rfl := Option.some.inj located
      exact ⟨new, rfl, here⟩
    | succ index => exact ih located

theorem incoming_grows {olds news : List Block} (grown : List.Forall₂ Block.Grows olds news)
    (graph : Graph) (index : Nat) :
    List.Forall₂ Incoming.Grows (incoming olds graph index) (incoming news graph index) := by
  unfold incoming
  induction graph.predecessors (graph.idAt index) with
  | nil => exact .nil
  | cons id rest ih =>
    rw [List.filterMap_cons, List.filterMap_cons]
    cases graph.position? id with
    | none => exact ih
    | some position =>
      refine .cons (fun name written => ?_) ih
      dsimp only at written ⊢
      split
      next back =>
        rw [if_pos back] at written
        obtain ⟨version, found⟩ := Option.isSome_iff_exists.mp written
        obtain ⟨old, inside, writes⟩ := mem_of_latestWrites found
        obtain ⟨place, located⟩ := List.getElem?_of_mem inside
        obtain ⟨new, there, grows⟩ :=
          exists_grown (List.forall₂_drop _ (List.forall₂_take _ grown)) located
        exact latestWrites_isSome (List.mem_of_getElem? there)
          (grows.writes name (by rw [writes]; rfl))
      next plain =>
        rw [if_neg plain] at written
        cases located : olds[position]? with
        | none =>
          rw [located] at written
          simp at written
        | some old =>
          obtain ⟨new, there, grows⟩ := exists_grown grown located
          rw [located] at written
          rw [there]
          exact grows.writes name written

theorem length_written {edges wider : List Incoming} (grown : List.Forall₂ Incoming.Grows edges wider)
    (name : String) :
    (edges.filterMap fun edge => edge.writes.get? name).length ≤
      (wider.filterMap fun edge => edge.writes.get? name).length := by
  induction grown with
  | nil => exact Nat.le_refl _
  | @cons old new _ _ grows _ ih =>
    rw [List.filterMap_cons, List.filterMap_cons]
    cases found : old.writes.get? name with
    | none =>
      cases new.writes.get? name with
      | none => exact ih
      | some version => exact Nat.le_succ_of_le ih
    | some version =>
      obtain ⟨more, written⟩ := Option.isSome_iff_exists.mp (grows name (by rw [found]; rfl))
      rw [written]
      exact Nat.succ_le_succ ih

theorem needsPhi_iff {reads : Names} {edges : List Incoming} {name : String} :
    needsPhi reads edges name = true ↔
      let written := edges.filterMap fun edge => edge.writes.get? name
      1 < written.eraseDups.length ∨ written.length = 1 ∧ reads.contains name = true := by
  simp [needsPhi]

/-- More writes and reads keep the need for a phi if different edges bring in different versions. -/
theorem needsPhi_grows {reads more : Names} {name : String}
    (read : reads.contains name = true → more.contains name = true) {edges wider : List Incoming}
    (grown : List.Forall₂ Incoming.Grows edges wider)
    (distinct : (wider.filterMap fun edge => edge.writes.get? name).Nodup)
    (needs : needsPhi reads edges name = true) :
    needsPhi more wider name = true ∧
      0 < (wider.filterMap fun edge => edge.writes.get? name).length := by
  have longer := length_written grown name
  rw [needsPhi_iff] at needs ⊢
  dsimp only at needs ⊢
  rw [Graph.eraseDups_of_nodup distinct]
  -- With one edge left that brings in the name, it was the only one before.
  match old : edges.filterMap fun edge => edge.writes.get? name with
  | [] => simp [old] at needs
  | [version] =>
    rw [old, Graph.eraseDups_of_nodup (List.nodup_singleton version)] at needs
    rw [old] at longer
    have reads : reads.contains name = true := by simpa using needs
    rcases Nat.lt_or_ge 1 (wider.filterMap fun edge => edge.writes.get? name).length with two | one
    · exact ⟨.inl two, Nat.lt_of_succ_lt two⟩
    · exact ⟨.inr ⟨Nat.le_antisymm one longer, read reads⟩, longer⟩
  | _ :: _ :: _ =>
    rw [old] at longer
    have two : 1 < (wider.filterMap fun edge => edge.writes.get? name).length :=
      Nat.lt_of_lt_of_le (by simp) longer
    exact ⟨.inl two, Nat.lt_of_succ_lt two⟩

theorem phiNames_grows {olds news : List Block} (grown : List.Forall₂ Block.Grows olds news)
    (closed : (graphOf news).Closed) (laid : Laid (outlinesOf news))
    (signed : ∀ block ∈ news, block.Signed) (once : (defsOf news).Nodup) {index : Nat}
    {old new : Block} (here : olds[index]? = some old) (there : news[index]? = some new) :
    phiNames olds (graphOf news) index old ⊆ phiNames news (graphOf news) index new := by
  intro name member
  obtain ⟨other, located, grows⟩ := exists_grown grown here
  obtain rfl := Option.some.inj (there.symm.trans located)
  unfold phiNames at member ⊢
  split at member
  next joins =>
    rw [if_pos joins, List.mem_filter, Names.mem_toList_ofList]
    have needs := (List.mem_filter.mp member).2
    obtain ⟨needed, written⟩ := needsPhi_grows (grows.reads name)
      (incoming_grows grown (graphOf news) index)
      (incoming_distinct closed laid signed once located name) needs
    refine ⟨?_, needed⟩
    obtain ⟨version, listed⟩ := List.exists_mem_of_length_pos written
    obtain ⟨edge, inside, found⟩ := List.mem_filterMap.mp listed
    refine List.mem_flatMap.mpr ⟨edge, inside, Table.mem_keys.mpr ?_⟩
    rw [Table.contains, found]
    rfl
  next => cases member

end Placement

section Counting

theorem Table.keys_nodup {α : Type} (table : Table α) : table.keys.Nodup := by
  refine List.pairwise_map.mpr (table.increasing.imp ?_)
  intro first second less same
  exact String.lt_irrefl _ (same ▸ less)

theorem phiNames_nodup (blocks : List Block) (graph : Graph) (index : Nat) (block : Block) :
    (phiNames blocks graph index block).Nodup := by
  unfold phiNames
  split
  · exact (Table.keys_nodup _).filter _
  · exact List.nodup_nil

theorem placePhis_names (sources : String → List (String × Variable)) (versions : Versions)
    (names : List String) :
    ((placePhis sources versions names).1.map (·.target)).map Variable.name = names := by
  induction names generalizing versions with
  | nil => rfl
  | cons name rest ih => exact congrArg (name :: ·) (ih (versions.allocate name).2)

theorem length_versionsOf (name : String) (defined : List Variable) :
    (versionsOf name defined).length = (defined.map Variable.name).count name := by
  rw [versionsOf, List.length_map, List.count_eq_countP, List.countP_map, List.countP_eq_length_filter]
  rfl

theorem joinFrom_take (blocks : List Block) (graph : Graph) (exits : List (Table Nat))
    (index : Nat) (versions : Versions) (rest : List Block) (count : Nat) :
    (joinFrom blocks graph exits index versions rest).blocks.take count =
      (joinFrom blocks graph exits index versions (rest.take count)).blocks := by
  induction rest generalizing index versions count with
  | nil => simp [joinFrom]
  | cons block others ih =>
    cases count with
    | zero => rfl
    | succ count => exact congrArg (_ :: ·) (ih (index + 1) _ count)

variable {olds news : List Block} {graph other : Graph}

theorem joinFrom_count_le (exits wider : List (Table Nat)) {rest more : List Block}
    (plain : ∀ instruction ∈ instructionsOf rest, instruction.isPhi = false)
    (noPhi : ∀ instruction ∈ instructionsOf more, instruction.isPhi = false)
    (long : rest.length = more.length) (index : Nat) (versions later : Versions)
    (kept : ∀ (offset : Nat) (old new : Block), rest[offset]? = some old →
      more[offset]? = some new →
        phiNames olds graph (index + offset) old ⊆ phiNames news other (index + offset) new)
    (name : String) :
    (versionsOf name (phiDefs (instructionsOf
        (joinFrom olds graph exits index versions rest).blocks))).length ≤
      (versionsOf name (phiDefs (instructionsOf
        (joinFrom news other wider index later more).blocks))).length := by
  induction rest generalizing more index versions later with
  | nil => exact Nat.zero_le _
  | cons old others ih =>
    match more, long with
    | new :: following, long =>
      rw [instructionsOf, List.flatMap_cons, List.forall_mem_append] at plain noPhi
      have here : (phiNames olds graph index old).count name ≤
          (phiNames news other index new).count name := by
        rcases Nat.eq_zero_or_pos ((phiNames olds graph index old).count name) with none | some
        · exact none ▸ Nat.zero_le _
        · have single := List.nodup_iff_count_le_one.mp (phiNames_nodup olds graph index old) name
          have found := kept 0 old new rfl rfl (List.count_pos_iff.mp some)
          exact Nat.le_trans single (List.count_pos_iff.mpr found)
      have step := ih plain.2 noPhi.2 (Nat.succ.inj long) (index + 1)
        (phisAt olds graph exits index versions old).2 (phisAt news other wider index later new).2
        fun offset one two left right => by
          have shifted := kept (offset + 1) one two left right
          rwa [← Nat.add_assoc, Nat.add_right_comm] at shifted
      rw [joinFrom_cons, joinFrom_cons]
      simp only [instructionsOf, List.flatMap_cons, phiDefs_append, versionsOf_append,
        List.length_append, Block.phiDefs_joinWith plain.1, Block.phiDefs_joinWith noPhi.1]
      refine Nat.add_le_add ?_ step
      rw [length_versionsOf, length_versionsOf, phisAt, phisAt, placePhis_names, placePhis_names]
      exact here

end Counting
end Reentrancy
