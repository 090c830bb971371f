import AnnotatedSource.Proofs.Comments.Attribution
import AnnotatedSource.Proofs.Tree.Coherent

/-!
Whether two nodes may have a comment in common.  The comments of a node lie within its parent, those
of a node with members lie outside the node; so a node and its ancestors share none.  Nodes that are
not related are separated by code tokens, so they share neither leading nor trailing comments.
-/

set_option autoImplicit false
set_option relaxedAutoImplicit false

namespace AnnotatedSource.Source

/-- A node claims the comments that lead it and those that trail it. -/
def Claims (source : Source) (id : source.tree.Id) (comment : Token) : Prop :=
  comment ∈ (source.commentsOf id).leading ∨ comment ∈ (source.commentsOf id).trailing

/-- Every node but the root has a code token in it. -/
def Filled (source : Source) : Prop :=
  ∀ id : source.tree.Id, id ≠ source.tree.root →
    ∃ token ∈ source.stream.tokens.toList,
      token.isComment = false ∧ (source.tree.node id).span.Encloses token.span

instance (source : Source) : Decidable source.Filled :=
  inferInstanceAs (Decidable (∀ id : source.tree.Id, id ≠ source.tree.root → _))

variable {source : Source}

theorem leads_of_mem_leading (separated : source.stream.Separated) {id : source.tree.Id}
    (bare : ¬source.tree.IsBareProgram id) {comment : Token}
    (h : comment ∈ (source.commentsOf id).leading) :
    ¬source.tree.HoldsNothing id ∧ source.tree.Leads source.stream id comment := by
  by_cases nothing : source.tree.HoldsNothing id
  · rw [commentsOf_of_holdsNothing separated.inOrder bare nothing] at h
    contradiction
  · rw [commentsOf_of_members separated bare nothing] at h
    exact ⟨nothing, of_decide_eq_true (List.mem_filter.1 h).2⟩

theorem liesIn_or_trails_of_mem_trailing (separated : source.stream.Separated)
    {id : source.tree.Id} (bare : ¬source.tree.IsBareProgram id) {comment : Token}
    (h : comment ∈ (source.commentsOf id).trailing) :
    (source.tree.HoldsNothing id ∧ source.tree.LiesIn id comment) ∨
      (¬source.tree.HoldsNothing id ∧ source.tree.Trails source.stream id comment) := by
  by_cases nothing : source.tree.HoldsNothing id
  · rw [commentsOf_of_holdsNothing separated.inOrder bare nothing] at h
    exact .inl ⟨nothing, of_decide_eq_true (List.mem_filter.1 h).2⟩
  · rw [commentsOf_of_members separated bare nothing] at h
    exact .inr ⟨nothing, of_decide_eq_true (List.mem_filter.1 h).2⟩

theorem mem_tokens_of_claims (separated : source.stream.Separated) {id : source.tree.Id}
    {comment : Token} (h : source.Claims id comment) : comment ∈ source.stream.tokens.toList := by
  by_cases bare : source.tree.IsBareProgram id
  · rw [Claims, commentsOf_of_bareProgram bare] at h
    rcases h with leading | trailing
    · exact (List.mem_filter.1 leading).1
    · contradiction
  · by_cases nothing : source.tree.HoldsNothing id
    · rw [Claims, commentsOf_of_holdsNothing separated.inOrder bare nothing] at h
      rcases h with leading | trailing
      · contradiction
      · exact (List.mem_filter.1 trailing).1
    · rw [Claims, commentsOf_of_members separated bare nothing] at h
      rcases h with leading | trailing
      · exact (List.mem_filter.1 leading).1
      · exact (List.mem_filter.1 trailing).1

theorem not_bare_of_ne_root (programAtRoot : source.tree.ProgramAtRoot) {id : source.tree.Id}
    (h : id ≠ source.tree.root) : ¬source.tree.IsBareProgram id :=
  fun bare => h (programAtRoot id bare.1)

theorem not_bare_of_mem_ancestors (built : source.tree.Built) {id above : source.tree.Id}
    (h : above ∈ source.tree.ancestors id) : ¬source.tree.IsBareProgram above :=
  fun bare => Tree.children_ne_nil_of_mem_ancestors built h bare.2

theorem precedes_or_precedes_of_claims (separated : source.stream.Separated) {id : source.tree.Id}
    (bare : ¬source.tree.IsBareProgram id) (members : ¬source.tree.HoldsNothing id)
    {comment : Token} (h : source.Claims id comment) :
    comment.span.Precedes (source.tree.node id).span ∨
      (source.tree.node id).span.Precedes comment.span := by
  rcases h with leading | trailing
  · exact .inl (leads_of_mem_leading separated bare leading).2.2.1
  · rcases liesIn_or_trails_of_mem_trailing separated bare trailing with ⟨nothing, -⟩ | ⟨-, trails⟩
    · exact absurd nothing members
    · exact .inr trails.2.1

theorem encloses_of_claims_of_parent? (separated : source.stream.Separated)
    (built : source.tree.Built) (nested : source.tree.Nested)
    (programAtRoot : source.tree.ProgramAtRoot) {id parent : source.tree.Id}
    (isParent : source.tree.parent? id = some parent) {comment : Token}
    (h : source.Claims id comment) :
    (source.tree.node parent).span.Encloses comment.span := by
  have inner := nested parent id (built.mem_children_iff.2 isParent)
  have width := (source.tree.node id).span.start_le_stop
  have bare := not_bare_of_ne_root programAtRoot (Tree.ne_root_of_parent? isParent)
  rcases h with leading | trailing
  · obtain ⟨-, -, before, within, -⟩ := leads_of_mem_leading separated bare leading
    have bound := within parent isParent
    omega
  · rcases liesIn_or_trails_of_mem_trailing separated bare trailing with
      ⟨-, -, inside⟩ | ⟨-, -, after, within, -⟩
    · exact inner.trans inside
    · have bound := within parent isParent
      omega

theorem encloses_of_claims (separated : source.stream.Separated) (built : source.tree.Built)
    (nested : source.tree.Nested) (programAtRoot : source.tree.ProgramAtRoot)
    {id above : source.tree.Id} (isAbove : above ∈ source.tree.ancestors id) {comment : Token}
    (h : source.Claims id comment) : (source.tree.node above).span.Encloses comment.span := by
  obtain ⟨parent, isParent, member⟩ := Tree.mem_ancestors_iff.1 isAbove
  exact (Tree.encloses_of_mem_lineage built nested member).trans
    (encloses_of_claims_of_parent? separated built nested programAtRoot isParent h)

theorem not_claims_of_mem_ancestors (separated : source.stream.Separated)
    (built : source.tree.Built) (nested : source.tree.Nested)
    (programAtRoot : source.tree.ProgramAtRoot) {id above : source.tree.Id}
    (isAbove : above ∈ source.tree.ancestors id) (members : ¬source.tree.HoldsNothing above)
    {comment : Token} (h : source.Claims above comment) : ¬source.Claims id comment := by
  intro below
  have inside := encloses_of_claims separated built nested programAtRoot isAbove below
  have outside :=
    precedes_or_precedes_of_claims separated (not_bare_of_mem_ancestors built isAbove) members h
  have nonempty := separated.nonempty comment (mem_tokens_of_claims separated h)
  omega

/-- A node and the nodes above it claim no comment in common, a switch without cases above the node
left aside.  A node that starts with a node above it claims nothing that precedes it, and one that
stops with a node above it claims nothing that it precedes. -/
theorem claims_disjoint_of_mem_ancestors (source : Source) (separated : source.stream.Separated)
    (built : source.tree.Built) (nested : source.tree.Nested)
    (programAtRoot : source.tree.ProgramAtRoot) {id above : source.tree.Id}
    (isAbove : above ∈ source.tree.ancestors id) :
    (¬source.tree.IsCaselessSwitch above →
      ∀ comment, ¬(source.Claims above comment ∧ source.Claims id comment)) ∧
    ((source.tree.node above).span.start = (source.tree.node id).span.start →
      ∀ comment, source.Claims id comment →
        ¬comment.span.Precedes (source.tree.node id).span) ∧
    ((source.tree.node above).span.stop = (source.tree.node id).span.stop →
      ∀ comment, source.Claims id comment →
        ¬(source.tree.node id).span.Precedes comment.span) := by
  have claimed (comment : Token) (h : source.Claims id comment) :
      (source.tree.node above).span.Encloses comment.span ∧
        comment.span.start < comment.span.stop :=
    ⟨encloses_of_claims separated built nested programAtRoot isAbove h,
      separated.nonempty comment (mem_tokens_of_claims separated h)⟩
  refine ⟨?_, ?_, ?_⟩
  · rintro notSwitch comment ⟨hAbove, hBelow⟩
    have members : ¬source.tree.HoldsNothing above := by
      rintro (switch | ⟨-, childless, -⟩)
      · exact notSwitch switch
      · exact Tree.children_ne_nil_of_mem_ancestors built isAbove childless
    exact not_claims_of_mem_ancestors separated built nested programAtRoot isAbove members hAbove
      hBelow
  · intro sameStart comment h before
    obtain ⟨inside, nonempty⟩ := claimed comment h
    omega
  · intro sameStop comment h after
    obtain ⟨inside, nonempty⟩ := claimed comment h
    omega

theorem sample_built : sample.tree.Built := Shape.built_toTree sampleShape

theorem claims_disjoint_of_mem_ancestors_sample :
    (⟨1, by decide⟩ : sample.tree.Id) ∈ sample.tree.ancestors ⟨2, by decide⟩ ∧
      (∀ comment, ¬(sample.Claims ⟨1, by decide⟩ comment ∧ sample.Claims ⟨2, by decide⟩ comment)) ∧
      (∀ comment, sample.Claims ⟨2, by decide⟩ comment →
        ¬comment.span.Precedes (sample.tree.node ⟨2, by decide⟩).span) := by
  have isAbove : (⟨1, by decide⟩ : sample.tree.Id) ∈ sample.tree.ancestors ⟨2, by decide⟩ :=
    Tree.mem_ancestors_of_parent? (by decide)
  have disjoint := claims_disjoint_of_mem_ancestors sample (by decide) sample_built (by decide)
    (by decide) isAbove
  exact ⟨isAbove, disjoint.1 (by decide), disjoint.2.1 (by decide)⟩

theorem leading_disjoint_of_mem_ancestors (separated : source.stream.Separated)
    (built : source.tree.Built) (nested : source.tree.Nested) {id above : source.tree.Id}
    (bare : ¬source.tree.IsBareProgram id) (isAbove : above ∈ source.tree.ancestors id) :
    (source.commentsOf above).leading.Disjoint (source.commentsOf id).leading := by
  intro comment hAbove hBelow
  obtain ⟨-, -, before, -, -⟩ :=
    leads_of_mem_leading separated (not_bare_of_mem_ancestors built isAbove) hAbove
  obtain ⟨-, -, -, within, -⟩ := leads_of_mem_leading separated bare hBelow
  obtain ⟨parent, isParent, member⟩ := Tree.mem_ancestors_iff.1 isAbove
  have around := Tree.encloses_of_mem_lineage built nested member
  have bound := within parent isParent
  have nonempty := separated.nonempty comment (mem_tokens_of_claims separated (.inl hAbove))
  omega

private theorem trailing_disjoint_of_mem_ancestors (separated : source.stream.Separated)
    (built : source.tree.Built) (coherent : source.tree.Coherent) {id above : source.tree.Id}
    (isAbove : above ∈ source.tree.ancestors id) (members : ¬source.tree.HoldsNothing above) :
    (source.commentsOf above).trailing.Disjoint (source.commentsOf id).trailing := by
  intro comment hAbove hBelow
  exact not_claims_of_mem_ancestors separated built coherent.nested coherent.programAtRoot isAbove
    members (.inr hAbove) (.inr hBelow)

private theorem leading_disjoint_of_precedes (separated : source.stream.Separated)
    {m n : source.tree.Id} (bareM : ¬source.tree.IsBareProgram m)
    (bareN : ¬source.tree.IsBareProgram n)
    (order : (source.tree.node m).span.Precedes (source.tree.node n).span)
    (filled : ∃ token ∈ source.stream.tokens.toList,
      token.isComment = false ∧ (source.tree.node m).span.Encloses token.span) :
    (source.commentsOf m).leading.Disjoint (source.commentsOf n).leading := by
  intro comment leadsM leadsN
  obtain ⟨token, member, isCode, inside⟩ := filled
  obtain ⟨-, -, before, -, -⟩ := leads_of_mem_leading separated bareM leadsM
  obtain ⟨-, -, -, -, clear⟩ := leads_of_mem_leading separated bareN leadsN
  exact clear token member isCode ⟨by omega, by omega⟩

private theorem trailing_disjoint_of_precedes (separated : source.stream.Separated)
    {m n : source.tree.Id} (bareM : ¬source.tree.IsBareProgram m)
    (bareN : ¬source.tree.IsBareProgram n) (membersM : ¬source.tree.HoldsNothing m)
    (membersN : ¬source.tree.HoldsNothing n)
    (order : (source.tree.node m).span.Precedes (source.tree.node n).span)
    (filled : ∃ token ∈ source.stream.tokens.toList,
      token.isComment = false ∧ (source.tree.node n).span.Encloses token.span) :
    (source.commentsOf m).trailing.Disjoint (source.commentsOf n).trailing := by
  intro comment trailsM trailsN
  obtain ⟨token, member, isCode, inside⟩ := filled
  rcases liesIn_or_trails_of_mem_trailing separated bareM trailsM with
    ⟨nothing, -⟩ | ⟨-, -, -, -, clear⟩
  · exact membersM nothing
  · rcases liesIn_or_trails_of_mem_trailing separated bareN trailsN with
      ⟨nothing, -⟩ | ⟨-, -, after, -, -⟩
    · exact membersN nothing
    · exact clear token member isCode ⟨by omega, by omega⟩

theorem nonempty_of_filled (separated : source.stream.Separated) (filled : source.Filled)
    {id : source.tree.Id} (h : id ≠ source.tree.root) :
    (source.tree.node id).span.start < (source.tree.node id).span.stop := by
  obtain ⟨token, member, -, inside⟩ := filled id h
  have nonempty := separated.nonempty token member
  omega

theorem above_or_precedes (separated : source.stream.Separated) (built : source.tree.Built)
    (coherent : source.tree.Coherent) (filled : source.Filled) {m n : source.tree.Id}
    (distinct : m ≠ n) :
    m ∈ source.tree.ancestors n ∨ n ∈ source.tree.ancestors m ∨
      (m ≠ source.tree.root ∧ n ≠ source.tree.root ∧
        ((source.tree.node m).span.Precedes (source.tree.node n).span ∨
          (source.tree.node n).span.Precedes (source.tree.node m).span)) := by
  rcases built.kinship m n with above | below | ⟨left, hleft, right, hright, siblings⟩
  · exact .inl ((Tree.mem_lineage_iff.1 above).resolve_left distinct)
  · exact .inr (.inl ((Tree.mem_lineage_iff.1 below).resolve_left distinct.symm))
  · have ⟨_, parent, leftParent, rightParent⟩ := siblings
    have leftRoot := Tree.ne_root_of_parent? leftParent
    have rightRoot := Tree.ne_root_of_parent? rightParent
    have order := Tree.precedes_or_precedes_of_siblings built coherent.nested
      coherent.siblingsApart hleft hright siblings (nonempty_of_filled separated filled leftRoot)
      (nonempty_of_filled separated filled rightRoot)
    exact .inr (.inr ⟨Tree.ne_root_of_mem_lineage hleft leftRoot,
      Tree.ne_root_of_mem_lineage hright rightRoot, order⟩)

theorem leading_disjoint (separated : source.stream.Separated) (built : source.tree.Built)
    (coherent : source.tree.Coherent) (filled : source.Filled) {m n : source.tree.Id}
    (distinct : m ≠ n) :
    (source.commentsOf m).leading.Disjoint (source.commentsOf n).leading := by
  have bare {id : source.tree.Id} (h : id ≠ source.tree.root) : ¬source.tree.IsBareProgram id :=
    not_bare_of_ne_root coherent.programAtRoot h
  rcases above_or_precedes separated built coherent filled distinct with
    above | below | ⟨rootM, rootN, order | order⟩
  · have bareN := bare (Tree.ne_root_of_mem_ancestors above)
    exact leading_disjoint_of_mem_ancestors separated built coherent.nested bareN above
  · have bareM := bare (Tree.ne_root_of_mem_ancestors below)
    have swapped :=
      leading_disjoint_of_mem_ancestors separated built coherent.nested bareM below
    exact List.disjoint_symm swapped
  · exact leading_disjoint_of_precedes separated (bare rootM) (bare rootN) order (filled m rootM)
  · have swapped :=
      leading_disjoint_of_precedes separated (bare rootN) (bare rootM) order (filled n rootN)
    exact List.disjoint_symm swapped

theorem trailing_disjoint (separated : source.stream.Separated) (built : source.tree.Built)
    (coherent : source.tree.Coherent) (filled : source.Filled) {m n : source.tree.Id}
    (distinct : m ≠ n) (membersM : ¬source.tree.HoldsNothing m)
    (membersN : ¬source.tree.HoldsNothing n) :
    (source.commentsOf m).trailing.Disjoint (source.commentsOf n).trailing := by
  have bare {id : source.tree.Id} (h : id ≠ source.tree.root) : ¬source.tree.IsBareProgram id :=
    not_bare_of_ne_root coherent.programAtRoot h
  rcases above_or_precedes separated built coherent filled distinct with
    above | below | ⟨rootM, rootN, order | order⟩
  · exact trailing_disjoint_of_mem_ancestors separated built coherent above membersM
  · have swapped := trailing_disjoint_of_mem_ancestors separated built coherent below membersN
    exact List.disjoint_symm swapped
  · exact trailing_disjoint_of_precedes separated (bare rootM) (bare rootN) membersM membersN
      order (filled n rootN)
  · have swapped := trailing_disjoint_of_precedes separated (bare rootN) (bare rootM) membersN
      membersM order (filled m rootM)
    exact List.disjoint_symm swapped

/-- In a coherent tree with code in every node but the root, no comment leads two nodes, and none
trails two nodes that are not empty containers. -/
theorem commentsOf_disjoint (source : Source) (separated : source.stream.Separated)
    (built : source.tree.Built) (coherent : source.tree.Coherent) (filled : source.Filled)
    {m n : source.tree.Id} (distinct : m ≠ n) :
    (source.commentsOf m).leading.Disjoint (source.commentsOf n).leading ∧
      (source.tree.isEmptyContainer m = false → source.tree.isEmptyContainer n = false →
        (source.commentsOf m).trailing.Disjoint (source.commentsOf n).trailing) := by
  have hasMembers {id : source.tree.Id} (h : source.tree.isEmptyContainer id = false) :
      ¬source.tree.HoldsNothing id := by
    intro nothing
    rw [Tree.isEmptyContainer_iff.2 nothing] at h
    contradiction
  refine ⟨leading_disjoint separated built coherent filled distinct, ?_⟩
  intro membersM membersN
  exact trailing_disjoint separated built coherent filled distinct (hasMembers membersM)
    (hasMembers membersN)

theorem commentsOf_disjoint_sample :
    sample.tree.Coherent ∧ sample.Filled ∧
      (sample.commentsOf ⟨1, by decide⟩).leading.Disjoint
        (sample.commentsOf ⟨5, by decide⟩).leading ∧
      (sample.commentsOf ⟨1, by decide⟩).trailing.Disjoint
        (sample.commentsOf ⟨5, by decide⟩).trailing := by
  have coherent : sample.tree.Coherent := ⟨by decide, by decide, by decide⟩
  have filled : sample.Filled := by decide
  have distinct : (⟨1, by decide⟩ : sample.tree.Id) ≠ ⟨5, by decide⟩ := by decide
  have disjoint :=
    commentsOf_disjoint sample (by decide) sample_built coherent filled distinct
  exact ⟨coherent, filled, disjoint.1, disjoint.2 (by decide) (by decide)⟩

end AnnotatedSource.Source
