import Requalify.Proofs.Outline.Step

/-!
The landmarks of a whole file. They stand in the outline in the order of their tokens, and no token
belongs to two of them, however malformed the text is.
-/

namespace Requalify

/-- `log` has the landmarks of a draft, latest first; their tokens stand in front of `ahead`. -/
structure Draft.Trail (whole : List Token) (draft : Draft) (log : List Footprint)
    (ahead : List Token) : Prop where
  valid : ∀ print ∈ log, print.Valid
  within : ∀ print ∈ log, print.tokens <:+ whole
  ordered : log.Pairwise Footprint.Follows
  passed : ∀ print ∈ log, ahead <:+ print.behind
  rest : ahead <:+ whole
  sound : draft.Sound (log.map (·.landmark))

namespace Draft

theorem Trail.start (whole : List Token) (size : Nat) : Trail whole (Draft.start size) [] whole where
  valid := by simp
  within := by simp
  ordered := List.Pairwise.nil
  passed := by simp
  rest := List.suffix_refl whole
  sound := by
    refine ⟨start_writable size, ?_⟩
    simp [Draft.start, keywords, Opening.keywords]

theorem Trail.step {whole : List Token} {draft next : Draft} {log : List Footprint} {token : Token}
    {rest : List Token} {more : Nat} (trail : Trail whole draft log (token :: rest))
    (leaves : Leaves draft token rest (next, more)) :
    ∃ log, Trail whole next log (rest.drop more) := by
  have shorter : rest.drop more <:+ token :: rest :=
    (List.drop_suffix more rest).trans (List.suffix_cons token rest)
  cases leaves with
  | nothing keeps =>
      exact ⟨log, trail.valid, trail.within, trail.ordered,
        fun print member => shorter.trans (trail.passed print member), shorter.trans trail.rest,
        keeps _ trail.sound⟩
  | landmark print valid within passed adds =>
      refine ⟨print :: log, ?_, ?_, ?_, ?_, shorter.trans trail.rest, adds _ trail.sound⟩
      · exact List.forall_mem_cons.mpr ⟨valid, trail.valid⟩
      · exact List.forall_mem_cons.mpr ⟨within.trans trail.rest, trail.within⟩
      · exact trail.ordered.cons fun earlier member => within.trans (trail.passed earlier member)
      · exact List.forall_mem_cons.mpr
          ⟨passed, fun earlier member => shorter.trans (trail.passed earlier member)⟩

theorem Trail.readFrom {whole : List Token} (named : ∀ token ∈ whole, token.Named) {draft : Draft}
    {log : List Footprint} {ahead : List Token} (trail : Trail whole draft log ahead)
    (before : List Token) : ∃ log, Trail whole (draft.readFrom before ahead) log [] := by
  fun_induction Draft.readFrom draft before ahead generalizing log with
  | case1 draft before => exact ⟨log, trail⟩
  | case2 draft before token rest next more stepEq ih =>
      have leaves : Leaves draft token rest _ := draft.step_leaves before rest fun token member =>
        named token (trail.rest.subset (List.mem_cons_of_mem _ member))
      rw [stepEq] at leaves
      obtain ⟨_, grown⟩ := trail.step leaves
      exact ih grown

end Draft

/-- `log` has the landmarks of an outline, in the order of their tokens. -/
structure Outline.Trail (outline : Outline) (whole : List Token) (log : List Footprint) : Prop where
  valid : ∀ print ∈ log, print.Valid
  within : ∀ print ∈ log, print.tokens <:+ whole
  ordered : log.Pairwise fun earlier later => later.Follows earlier
  mentions : (outline.mentions.map .mention).Sublist (log.map (·.landmark))
  statements : (outline.usings.map .statement).Sublist (log.map (·.landmark))
  keywords : (outline.anonymousNamespaces.map .keyword).Sublist (log.map (·.landmark))

theorem Outline.ofText_draft (text : String) :
    ∃ draft log, Draft.Trail (tokenize text) draft log [] ∧ Outline.ofText text = draft.finish := by
  obtain ⟨log, trail⟩ :=
    (Draft.Trail.start (tokenize text) (Text.byteLength text.toList)).readFrom (tokenize_named text) []
  exact ⟨_, log, trail, rfl⟩

theorem Outline.ofText_trail (text : String) :
    ∃ log, (Outline.ofText text).Trail (tokenize text) log := by
  obtain ⟨draft, log, trail, finished⟩ := ofText_draft text
  obtain ⟨-, mentions, statements, keywords⟩ := trail.sound
  have fewer : (draft.anonymousNamespaces.map Landmark.keyword).Sublist (log.map (·.landmark)) :=
    ((List.sublist_append_right _ _).map _).trans keywords
  rw [finished]
  refine ⟨log.reverse, ?_, ?_, ?_, ?_, ?_, ?_⟩
  · exact fun print member => trail.valid print (List.mem_reverse.mp member)
  · exact fun print member => trail.within print (List.mem_reverse.mp member)
  · exact List.pairwise_reverse.mpr trail.ordered
  · simpa [Draft.finish] using mentions.reverse
  · simpa [Draft.finish] using statements.reverse
  · simpa [Draft.finish] using fewer.reverse

/-- The names of all namespaces of an outline can be written. -/
structure Outline.Writable (outline : Outline) : Prop where
  scopes : ∀ scope ∈ outline.scopes, scope.path.Writable
  namespaces : ∀ definition ∈ outline.namespaces, definition.Writable

theorem Outline.ofText_writable (text : String) : (Outline.ofText text).Writable := by
  obtain ⟨draft, log, trail, finished⟩ := ofText_draft text
  obtain ⟨⟨scopes, namespaces, -⟩, -⟩ := trail.sound
  rw [finished]
  exact ⟨scopes, fun definition member => namespaces definition (List.mem_reverse.mp member)⟩

end Requalify
