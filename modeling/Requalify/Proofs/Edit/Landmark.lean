import Requalify.Codebase
import Requalify.Edit
import Requalify.Proofs.Edit.Apart
import Requalify.Proofs.Edit.Node
import Requalify.Proofs.Token.Terminator

/-!
The edits that the landmarks of a file ask for. Each of them stays at its landmark, so all edits of one
source are compatible with each other and cut no character, whatever the text, the catalog and the
policy are.
-/

namespace Requalify

namespace Footprint

theorem start_of_spelled {print : Footprint} {chain : NameChain}
    (spelled : chain.Spelled print.front print.last) : chain.start = print.first.start := by
  rw [spelled.start, first]
  cases print.front with
  | nil => rfl
  | cons token rest => rfl

section Places

variable {text : String} {print : Footprint} (within : print.tokens <:+ tokenize text)

include within

theorem front_placed {token : Token} (member : token ∈ print.front) :
    ∃ behind, token.Placed text.toList behind :=
  placed_of_mem (within.subset (by simp [tokens, member]))

/-- A chain begins between characters, in front of its last name. -/
theorem start_place {chain : NameChain} (spelled : chain.Spelled print.front print.last) :
    Text.isBoundary text.toList chain.start = true ∧ chain.start ≤ print.last.start := by
  obtain ⟨_, placed⟩ := first_placed within
  rw [start_of_spelled spelled]
  exact ⟨placed.startBoundary, first_start_le within⟩

/-- So does every name of it. -/
theorem pause_place {chain : NameChain} (spelled : chain.Spelled print.front print.last)
    {offset : Nat} (pauses : chain.Pauses offset) :
    Text.isBoundary text.toList offset = true ∧ offset ≤ print.last.start := by
  have ends (token : Token) (member : token ∈ print.front) :
      Text.isBoundary text.toList token.stop = true ∧ token.stop ≤ print.last.start := by
    obtain ⟨_, placed⟩ := front_placed within member
    exact ⟨placed.stopBoundary, front_stop_le within member⟩
  obtain ⟨passed, first, rfl⟩ := pauses
  unfold NameChain.stopBehind
  cases last : passed.getLast? with
  | some pair =>
      obtain ⟨token, inFront, same⟩ :=
        spelled.separators pair (first.subset (List.mem_of_getLast? last))
      rw [Option.map_some, Option.getD_some, same]
      exact ends token inFront
  | none =>
      cases leading : chain.leading with
      | some span =>
          obtain ⟨token, inFront, same⟩ := spelled.leading span leading
          rw [Option.map_none, Option.getD_none, Option.map_some, Option.getD_some, same]
          exact ends token inFront
      | none => exact start_place within spelled

end Places

end Footprint

namespace Patch

theorem replace_span (span : Span) (text label : String) : (replace span text label).span = span := by
  have ordered := span.start_le_stop
  ext
  · rfl
  · simp only [Patch.span, replace, Span.length]
    omega

theorem Fits.of_span {text : List Char} {patch : Patch}
    (start : Text.isBoundary text patch.span.start = true)
    (stop : Text.isBoundary text patch.span.stop = true) : patch.Fits text :=
  ⟨start, stop⟩

theorem Fits.insert {text : List Char} {offset : Nat} (boundary : Text.isBoundary text offset = true)
    (inserted label : String) : (insert offset inserted label).Fits text :=
  ⟨boundary, boundary⟩

/-- A patch in front of the last token of a landmark belongs to it. -/
theorem belongs_of_le_last {text : String} {print : Footprint} {patch : Patch}
    (within : print.tokens <:+ tokenize text) (fits : patch.Fits text.toList)
    (start : print.first.start ≤ patch.offset) (stop : patch.span.stop ≤ print.last.start) :
    patch.Belongs text.toList print := by
  obtain ⟨c, here, nonblank⟩ := (Footprint.last_placed within).at_start
  exact ⟨fits, .inl ⟨start, print.last.start, c, here, nonblank, stop,
    Footprint.last_start_lt within⟩⟩

/-- A landmark is removed with the semicolon that follows it. -/
theorem remove_belongs {text : String} {print : Footprint} {semicolon : Token}
    {others : List Token} {statement : Span} (label : String)
    (within : print.tokens <:+ tokenize text) (behind : print.behind = semicolon :: others)
    (isSemicolon : semicolon.isPunctuator ";" = true)
    (start : statement.start = print.first.start) (stop : statement.stop = semicolon.stop) :
    (remove (Text.expandRemoval text.toList statement) label).Belongs text.toList print := by
  obtain ⟨kind, lexeme⟩ : semicolon.kind = .punctuator ∧ semicolon.text = ";" := by
    simpa [Token.isPunctuator] using isSemicolon
  have placed := Footprint.next_placed within behind
  obtain ⟨_, firstPlaced⟩ := Footprint.first_placed within
  have limit := Footprint.limit_of_punctuator behind kind
  have covers : print.first.start < print.limit :=
    Nat.lt_of_le_of_lt (Footprint.first_start_le within) (Footprint.last_start_lt within)
  obtain ⟨before, middle, after, parts, beforeEq, middleEq⟩ := Text.parts_of_boundaries
    firstPlaced.startBoundary placed.stopBoundary (limit ▸ Nat.le_of_lt covers)
  have grown := Text.expandRemoval_grown after (start.trans beforeEq.symm)
    (stop.trans middleEq.symm)
  rw [← parts] at grown
  have span : (remove (Text.expandRemoval text.toList statement) label).span =
      Text.expandRemoval text.toList statement := replace_span _ _ _
  obtain ⟨c, here, nonblank⟩ := placed.at_start
  have width : semicolon.stop = semicolon.start + 1 := by
    rw [Token.stop, lexeme]
    rfl
  refine ⟨.of_span ?_ ?_, .inr ⟨covers, ⟨statement, start, stop.trans limit.symm, ?_⟩,
    semicolon.start, c, here, nonblank, by omega⟩⟩
  · rw [span]
    exact grown.startBoundary
  · rw [span]
    exact grown.stopBoundary
  · rw [span]
    exact grown

end Patch

namespace Edit

variable {policy : Policy} {source : Source} {print : Footprint} {edit : Edit}
  (within : print.tokens <:+ tokenize source.text)

include within

theorem ofReference_belongs {reference : Reference} {chain : NameChain}
    (spelled : chain.Spelled print.front print.last) (spells : reference.node.Spells chain)
    (asked : ofReference policy source reference = some edit) :
    edit.patch.Belongs source.text.toList print := by
  obtain ⟨offset, span, pauses⟩ := spells.qualifier
  have startEq : reference.node.qualifierSpan.start = chain.start := by
    rw [span]
    rfl
  have start := Footprint.start_place within spelled
  obtain ⟨stopBoundary, stopBound⟩ :
      Text.isBoundary source.text.toList reference.node.qualifierSpan.stop = true ∧
        reference.node.qualifierSpan.stop ≤ print.last.start := by
    rw [span]
    rcases Span.between_stop_eq chain.start offset with same | same
    · rw [same]
      exact start
    · rw [same]
      exact Footprint.pause_place within spelled pauses
  have startBoundary := startEq ▸ start.1
  have belongs (patch : Patch)
      (start : Text.Cuts source.text.toList reference.node.qualifierSpan patch.span.start)
      (stop : Text.Cuts source.text.toList reference.node.qualifierSpan patch.span.stop) :
      patch.Belongs source.text.toList print := by
    apply Patch.belongs_of_le_last within (.of_span start.boundary stop.boundary)
    · rw [← Footprint.start_of_spelled spelled, ← startEq]
      exact start.start_le
    · exact Nat.le_trans stop.le_stop stopBound
  unfold ofReference at asked
  dsimp only at asked
  split at asked
  next => simp at asked
  next =>
    split at asked
    next => simp at asked
    next text _ =>
      obtain rfl := Option.some.inj asked
      have place := WrittenQualifier.insertionPoint_cuts startBoundary stopBoundary
      exact belongs _ place place
    next count text _ =>
      obtain rfl := Option.some.inj asked
      have place := WrittenQualifier.leadingSpan_cuts startBoundary stopBoundary count
      apply belongs
      · rw [Patch.replace_span]
        exact place.1
      · rw [Patch.replace_span]
        exact place.2

theorem ofUsing_belongs {statement : UsingStatement} (start : statement.start = print.first.start)
    (stop : statement.stop = print.last.stop)
    (asked : ofUsing policy source statement = some edit) :
    edit.patch.Belongs source.text.toList print := by
  unfold ofUsing at asked
  split at asked
  next => simp at asked
  next extent found =>
    split at asked
    next => simp at asked
    next =>
      obtain rfl := Option.some.inj asked
      obtain ⟨semicolon, others, behind, isSemicolon, extentEq, -⟩ :=
        UsingStatement.extent?_eq_some (Footprint.last_placed within) stop found
      have ordered : statement.start ≤ semicolon.stop := by
        have first := Footprint.first_start_le within
        have follows : print.last.stop ≤ semicolon.start :=
          (Footprint.last_placed within).stop_le (by simp [behind])
        have lastEnds : print.last.start ≤ print.last.stop := Nat.le_add_right _ _
        have semicolonEnds : semicolon.start ≤ semicolon.stop := Nat.le_add_right _ _
        omega
      rw [Span.between_of_le ordered] at extentEq
      apply Patch.remove_belongs removeUsingLabel within behind isSemicolon
      · exact (congrArg Span.start extentEq).trans start
      · exact congrArg Span.stop extentEq

theorem ofAnonymousNamespace_belongs {keyword : Span} (isFirst : keyword = print.first.span)
    {next : Token} {others : List Token} (behind : print.behind = next :: others)
    (kind : next.kind = .punctuator) :
    (ofAnonymousNamespace source keyword).patch.Belongs source.text.toList print := by
  obtain ⟨_, firstPlaced⟩ := Footprint.first_placed within
  have lastPlaced := Footprint.last_placed within
  have nextPlaced := Footprint.next_placed within behind
  have limit := Footprint.limit_of_punctuator behind kind
  have follows : print.first.stop ≤ next.start :=
    Nat.le_trans (Footprint.first_stop_le within) (lastPlaced.stop_le (by simp [behind]))
  obtain ⟨c, here, nonblank⟩ := nextPlaced.at_start
  subst isFirst
  refine ⟨.insert firstPlaced.stopBoundary _ _, .inl ⟨Nat.le_add_right _ _, next.start, c, here,
    nonblank, follows, ?_⟩⟩
  rw [limit]
  exact nextPlaced.start_lt_stop

theorem ofAnonymousReference_belongs {reference : AnonymousReference} {chain : NameChain}
    (spelled : chain.Spelled print.front print.last) (spells : reference.node.Spells chain) :
    (ofAnonymousReference source reference).patch.Belongs source.text.toList print := by
  have start : reference.node.start = print.first.start :=
    spells.start.trans (Footprint.start_of_spelled spelled)
  obtain ⟨_, placed⟩ := Footprint.first_placed within
  simp only [ofAnonymousReference, start]
  exact Patch.belongs_of_le_last within (.insert placed.startBoundary _ _) (Nat.le_refl _)
    (Footprint.first_start_le within)

end Edit

end Requalify
