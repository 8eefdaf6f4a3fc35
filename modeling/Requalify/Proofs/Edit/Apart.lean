import Requalify.Proofs.Outline.Trail
import Requalify.Proofs.Patch.Splice
import Requalify.Proofs.Text.Removal

/-!
Patches at the landmarks of one text are compatible. A patch either lies inside the tokens of its
landmark, or it removes them with the blanks around them. The first character of a token is no blank, so
what is removed never reaches the tokens of another landmark; and two removals never meet, because one
that grows to the front begins behind a line feed, and a line feed is the last character that a removal
takes.
-/

namespace Requalify

open Text (At isBoundary isAsciiBlank Grown byteLength)

namespace Token

variable {text : List Char} {token : Token} {behind : List Token}

theorem Placed.at_start (placed : token.Placed text behind) :
    ∃ c, At text token.start c ∧ isAsciiBlank c = false := by
  obtain ⟨⟨c, rest, lexeme, nonblank⟩, before, after, parts, start, -⟩ := placed
  exact ⟨c, ⟨before, rest ++ after, by rw [parts, lexeme]; rfl, start⟩, nonblank⟩

theorem Placed.startBoundary (placed : token.Placed text behind) :
    isBoundary text token.start = true := by
  obtain ⟨c, here, -⟩ := placed.at_start
  exact here.isBoundary

theorem Placed.stopBoundary (placed : token.Placed text behind) :
    isBoundary text token.stop = true := by
  obtain ⟨-, before, after, rfl, start, -⟩ := placed
  rw [stop, ← start, ← Text.byteLength_append, ← List.append_assoc]
  exact Text.isBoundary_length _ _

end Token

theorem placed_of_mem {text : String} {token : Token} (member : token ∈ tokenize text) :
    ∃ behind, token.Placed text.toList behind := by
  obtain ⟨front, behind, parts⟩ := List.append_of_mem member
  exact ⟨behind, tokenize_placed ⟨front, parts.symm⟩⟩

namespace Footprint

/-- The end of a landmark, with a punctuator that follows it. -/
def limit (print : Footprint) : Nat :=
  match print.behind with
  | [] => print.last.stop
  | next :: _ => if next.kind == .punctuator then next.stop else print.last.stop

theorem limit_of_punctuator {print : Footprint} {next : Token} {others : List Token}
    (behind : print.behind = next :: others) (punctuator : next.kind = .punctuator) :
    print.limit = next.stop := by
  simp [limit, behind, punctuator]

theorem first_eq_or_mem (print : Footprint) : print.first = print.last ∨ print.first ∈ print.front := by
  unfold first
  cases print.front with
  | nil => exact .inl rfl
  | cons token rest => exact .inr (by simp)

section Places

variable {text : String} {print : Footprint} (within : print.tokens <:+ tokenize text)

include within

theorem last_placed : print.last.Placed text.toList print.behind :=
  tokenize_placed ((List.suffix_append _ _).trans within)

theorem next_placed {next : Token} {others : List Token} (behind : print.behind = next :: others) :
    next.Placed text.toList others := by
  apply tokenize_placed
  rw [← behind]
  exact ((List.suffix_cons _ _).trans (List.suffix_append print.front _)).trans within

theorem first_placed : ∃ behind, print.first.Placed text.toList behind := by
  obtain ⟨rest, tokens⟩ := print.tokens_eq_cons
  exact ⟨rest, tokenize_placed (tokens ▸ within)⟩

theorem front_stop_le {token : Token} (member : token ∈ print.front) :
    token.stop ≤ print.last.start := by
  have ordered := (tokenize_pairwise text).sublist within.sublist
  exact (List.pairwise_append.mp ordered).2.2 token member print.last (by simp)

theorem first_start_le : print.first.start ≤ print.last.start := by
  rcases first_eq_or_mem print with same | member
  · rw [same]
  · have ends := front_stop_le within member
    have begins : print.first.start ≤ print.first.stop := Nat.le_add_right _ _
    omega

theorem first_stop_le : print.first.stop ≤ print.last.stop := by
  rcases first_eq_or_mem print with same | member
  · rw [same]
  · have ends := front_stop_le within member
    have lastEnds : print.last.start ≤ print.last.stop := Nat.le_add_right _ _
    omega

theorem last_stop_le : print.last.stop ≤ print.limit := by
  have placed := last_placed within
  unfold limit
  split
  next => exact Nat.le_refl _
  next next others behind =>
    have follows : print.last.stop ≤ next.start := placed.stop_le (by simp [behind])
    have begins : next.start ≤ next.stop := Nat.le_add_right _ _
    split
    next => omega
    next => exact Nat.le_refl _

theorem last_start_lt : print.last.start < print.limit :=
  Nat.lt_of_lt_of_le (last_placed within).start_lt_stop (last_stop_le within)

/-- A landmark that follows begins behind the end, because it does not open with a punctuator. -/
theorem limit_le_of_follows {later : Footprint} (valid : later.Valid)
    (follows : later.Follows print) : print.limit ≤ later.first.start := by
  obtain ⟨rest, tokens⟩ := later.tokens_eq_cons
  rw [Follows, tokens] at follows
  have beyond : print.last.stop ≤ later.first.start :=
    (last_placed within).stop_le (follows.subset (by simp))
  unfold limit
  split
  next => exact beyond
  next next others behind =>
    split
    next punctuator =>
      rw [behind] at follows
      rcases List.suffix_cons_iff.mp follows with here | farther
      · have same : later.first = next := (List.cons.inj here).1
        exact absurd (same ▸ eq_of_beq punctuator) valid.opens
      · exact (next_placed within behind).stop_le (farther.subset (by simp))
    next => exact beyond

end Places

end Footprint

namespace Patch

/-- The patch lies inside the tokens of the landmark, in front of some character of theirs or of the
punctuator that follows. -/
structure Inside (text : List Char) (print : Footprint) (patch : Patch) : Prop where
  start_le : print.first.start ≤ patch.offset
  anchor : ∃ offset c, At text offset c ∧ isAsciiBlank c = false ∧ patch.span.stop ≤ offset ∧
    offset < print.limit

/-- The patch removes the landmark with the blanks around it. -/
structure Around (text : List Char) (print : Footprint) (patch : Patch) : Prop where
  covers : print.first.start < print.limit
  grown : ∃ statement, statement.start = print.first.start ∧ statement.stop = print.limit ∧
    Grown text statement patch.span
  closing : ∃ offset c, At text offset c ∧ isAsciiBlank c = false ∧ offset + 1 = print.limit

structure Belongs (text : List Char) (print : Footprint) (patch : Patch) : Prop where
  fits : patch.Fits text
  place : patch.Inside text print ∨ patch.Around text print

theorem blank_of_horizontal {c : Char} (horizontal : Text.isHorizontal c = true) :
    isAsciiBlank c = true := by
  simp [Text.isHorizontal] at horizontal
  rcases horizontal with rfl | rfl
  · rfl
  · rfl

section Apart

variable {text : List Char} {earlier later : Footprint} {patch other : Patch}
  (limit : earlier.limit ≤ later.first.start)

include limit

theorem Inside.precedes (inside : patch.Inside text earlier) :
    patch.offset < later.first.start ∧ patch.span.stop ≤ later.first.start := by
  obtain ⟨offset, c, -, -, stop, bound⟩ := inside.anchor
  have begins : patch.offset ≤ patch.span.stop := Nat.le_add_right _ _
  omega

theorem Around.precedes (around : patch.Around text earlier)
    (opens : ∃ c, At text later.first.start c ∧ isAsciiBlank c = false) :
    patch.offset < later.first.start ∧ patch.span.stop ≤ later.first.start := by
  obtain ⟨c, here, nonblank⟩ := opens
  obtain ⟨statement, start, stop, grown⟩ := around.grown
  have covers := around.covers
  have begins : patch.offset ≤ statement.start := grown.start_le
  refine ⟨by omega, Nat.le_of_not_lt fun reaches => ?_⟩
  have blank : isAsciiBlank c = true := by
    rcases grown.trail _ c here (by omega) reaches with horizontal | rfl | ⟨rfl, -⟩
    · exact blank_of_horizontal horizontal
    · rfl
    · rfl
  simp [blank] at nonblank

/-- A removal takes no character of what stands in front of it. -/
theorem Around.anchor_lt (around : other.Around text later) {offset : Nat} {c : Char}
    (here : At text offset c) (nonblank : isAsciiBlank c = false) (bound : offset < earlier.limit) :
    offset < other.offset := by
  obtain ⟨statement, start, -, grown⟩ := around.grown
  refine Nat.lt_of_not_le fun reaches => ?_
  have blank := blank_of_horizontal (grown.lead offset c here reaches (by omega))
  simp [blank] at nonblank

/-- A removal that grows to the front begins behind a line feed, where another one has ended. -/
theorem Around.precedes_around (around : patch.Around text earlier)
    (otherAround : other.Around text later)
    (opens : ∃ c, At text later.first.start c ∧ isAsciiBlank c = false) :
    patch.Precedes other := by
  obtain ⟨offset, c, here, nonblank, closing⟩ := around.closing
  have behind := otherAround.anchor_lt limit here nonblank (by omega)
  obtain ⟨offsetBound, stopBound⟩ := around.precedes limit opens
  obtain ⟨statement, start, stop, grown⟩ := around.grown
  obtain ⟨otherStatement, otherStart, -, otherGrown⟩ := otherAround.grown
  have begins : patch.offset ≤ statement.start := grown.start_le
  have covers := around.covers
  refine ⟨by omega, ?_⟩
  rcases otherGrown.lineStart with same | atStart | ⟨feed, isFeed, feedEq⟩
  · have place : other.offset = otherStatement.start := same
    omega
  · have place : other.offset = 0 := atStart
    omega
  · have place : feed + 1 = other.offset := feedEq
    -- The line feed would be the last character of the earlier statement, or removed with it and then
    -- the last character removed.
    refine Nat.le_of_not_lt fun reaches => ?_
    rcases Nat.eq_or_lt_of_le (show offset ≤ feed by omega) with rfl | beyond
    · rw [here.unique isFeed] at nonblank
      simp [isAsciiBlank] at nonblank
    · rcases grown.trail feed _ isFeed (by omega) (by omega) with horizontal | isReturn | ⟨-, last⟩
      · simp [Text.isHorizontal] at horizontal
      · simp at isReturn
      · omega

theorem Belongs.precedes (belongs : patch.Belongs text earlier)
    (otherBelongs : other.Belongs text later)
    (opens : ∃ c, At text later.first.start c ∧ isAsciiBlank c = false) :
    patch.Precedes other := by
  have front : patch.offset < later.first.start ∧ patch.span.stop ≤ later.first.start :=
    belongs.place.elim (Inside.precedes limit) (Around.precedes limit · opens)
  rcases otherBelongs.place with inside | around
  · have begins := inside.start_le
    exact ⟨by omega, by omega⟩
  · rcases belongs.place with inside | removes
    · obtain ⟨offset, c, here, nonblank, stop, bound⟩ := inside.anchor
      have behind := around.anchor_lt limit here nonblank bound
      have begins : patch.offset ≤ patch.span.stop := Nat.le_add_right _ _
      exact ⟨by omega, by omega⟩
    · exact removes.precedes_around limit around opens

end Apart

/-- Patches at two landmarks of a text are compatible. -/
theorem Belongs.compatible {text : String} {earlier later : Footprint} {patch other : Patch}
    (belongs : patch.Belongs text.toList earlier) (otherBelongs : other.Belongs text.toList later)
    (within : earlier.tokens <:+ tokenize text) (otherWithin : later.tokens <:+ tokenize text)
    (valid : later.Valid) (follows : later.Follows earlier) : patch.Compatible other := by
  obtain ⟨behind, placed⟩ := Footprint.first_placed otherWithin
  have limit := Footprint.limit_le_of_follows within valid follows
  exact (belongs.precedes limit otherBelongs placed.at_start).compatible

end Patch

end Requalify
