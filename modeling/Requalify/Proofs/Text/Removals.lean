import Requalify.Proofs.Text.Growth

/-!
The removals of several statements of a text. Each takes its statement, blanks in front of it back to the
beginning of its line, and blanks behind it with one line terminator. They do not meet, so that deleting them
leaves all other bytes, and a statement that stands alone on its lines goes with exactly these lines.
-/

namespace Requalify.Text

theorem leadingBytes_of_blanks {lead front : List UInt8} (blank : ∀ byte ∈ lead, isBlankByte byte = true)
    (begins : ∀ byte ∈ front.head?, byte = lineFeed) : leadingBytes (lead ++ front) = lead.length := by
  have stops : front.takeWhile isBlankByte = [] ∧ front.dropWhile isBlankByte = front := by
    cases front with
    | nil => exact ⟨rfl, rfl⟩
    | cons byte rest =>
        obtain rfl := begins byte rfl
        exact ⟨rfl, rfl⟩
  rw [leadingBytes, List.takeWhile_append_of_pos blank, List.dropWhile_append_of_pos blank, stops.1, stops.2,
    List.append_nil]
  cases front with
  | nil => rfl
  | cons byte rest => exact if_pos (begins byte rfl)

theorem leadingBytes_spec (before : List UInt8) :
    ∃ lead front, before = lead ++ front ∧ leadingBytes before = lead.length ∧
      (∀ byte ∈ lead, isBlankByte byte = true) ∧ (lead = [] ∨ ∀ byte ∈ front.head?, byte = lineFeed) := by
  have blank : ∀ byte ∈ before.takeWhile isBlankByte, isBlankByte byte = true := fun byte member =>
    List.mem_takeWhile_imp member
  by_cases begins : ∀ byte ∈ (before.dropWhile isBlankByte).head?, byte = lineFeed
  · refine ⟨before.takeWhile isBlankByte, before.dropWhile isBlankByte, ?_, ?_, blank, .inr begins⟩
    · exact List.takeWhile_append_dropWhile.symm
    · rw [← leadingBytes_of_blanks blank begins, List.takeWhile_append_dropWhile]
  · refine ⟨[], before, rfl, ?_, by simp, .inl rfl⟩
    rw [leadingBytes]
    cases rest : before.dropWhile isBlankByte with
    | nil => simp [rest] at begins
    | cons byte others => exact if_neg fun feed => begins (by simp [rest, feed])

/-- What can stand at the end of a line that is removed. -/
def terminators : List (List UInt8) :=
  [[], [lineFeed], [carriageReturn, lineFeed]]

theorem trailingBytes_of_blanks {trail terminator back : List UInt8}
    (blank : ∀ byte ∈ trail, isBlankByte byte = true) (ends : terminator ∈ terminators)
    (atEnd : terminator = [] → back = []) :
    trailingBytes (trail ++ (terminator ++ back)) = (trail ++ terminator).length := by
  have stops : (terminator ++ back).takeWhile isBlankByte = [] ∧
      (terminator ++ back).dropWhile isBlankByte = terminator ++ back := by
    simp only [terminators, List.mem_cons, List.not_mem_nil, or_false] at ends
    rcases ends with rfl | rfl | rfl
    · obtain rfl := atEnd rfl
      exact ⟨rfl, rfl⟩
    · exact ⟨rfl, rfl⟩
    · exact ⟨rfl, rfl⟩
  rw [trailingBytes, List.takeWhile_append_of_pos blank, List.dropWhile_append_of_pos blank, stops.1, stops.2,
    List.append_nil, List.length_append]
  simp only [terminators, List.mem_cons, List.not_mem_nil, or_false] at ends
  rcases ends with rfl | rfl | rfl
  · obtain rfl := atEnd rfl
    rfl
  · rfl
  · exact (if_neg (by decide)).trans (if_pos ⟨rfl, rfl⟩)

theorem trailingBytes_spec (after : List UInt8) :
    ∃ trail terminator back, after = trail ++ (terminator ++ back) ∧
      trailingBytes after = (trail ++ terminator).length ∧
      (∀ byte ∈ trail, isBlankByte byte = true) ∧ terminator ∈ terminators := by
  have blank : ∀ byte ∈ after.takeWhile isBlankByte, isBlankByte byte = true := fun byte member =>
    List.mem_takeWhile_imp member
  by_cases ends : ∃ terminator ∈ terminators, ∃ back, after.dropWhile isBlankByte = terminator ++ back ∧
      (terminator = [] → back = [])
  · obtain ⟨terminator, member, back, parts, atEnd⟩ := ends
    have whole : after = after.takeWhile isBlankByte ++ (terminator ++ back) := by
      rw [← parts, List.takeWhile_append_dropWhile]
    refine ⟨after.takeWhile isBlankByte, terminator, back, whole, ?_, blank, member⟩
    rw [← trailingBytes_of_blanks blank member atEnd, ← whole]
  · refine ⟨[], [], after, rfl, ?_, by simp, by simp [terminators]⟩
    rw [trailingBytes]
    cases rest : after.dropWhile isBlankByte with
    | nil => exact absurd ⟨[], by simp [terminators], [], rest, fun _ => rfl⟩ ends
    | cons byte others =>
        refine (if_neg fun feed => ends ?_).trans (if_neg fun return_ => ends ?_)
        · exact ⟨[lineFeed], by simp [terminators], others, by rw [rest, feed]; rfl, by simp⟩
        · obtain ⟨isReturn, next⟩ := return_
          obtain ⟨more, rfl⟩ := List.head?_eq_some_iff.mp next
          exact ⟨[carriageReturn, lineFeed], by simp [terminators], more, by rw [rest, isReturn]; rfl, by simp⟩

theorem extract_of_parts {front part : List UInt8} (back : List UInt8) {start stop : Nat}
    (first : front.length = start) (last : start + part.length = stop) :
    (front ++ (part ++ back)).extract start stop = part := by
  have length : stop - start = part.length := by omega
  rw [List.extract_eq_take_drop, length, ← first, List.drop_left, List.take_left]

/-- What `removal` takes beside `statement`. -/
structure Takes (content : List UInt8) (statement removal : Span) : Prop where
  start_le : removal.start ≤ statement.start
  le_stop : statement.stop ≤ removal.stop
  inside : removal.stop ≤ content.length
  lead : ∀ byte ∈ content.extract removal.start statement.start, isBlankByte byte = true
  lineStart : removal.start = statement.start ∨ removal.start = 0 ∨
    content[removal.start - 1]? = some lineFeed
  trail : ∃ blanks terminator, content.extract statement.stop removal.stop = blanks ++ terminator ∧
    (∀ byte ∈ blanks, isBlankByte byte = true) ∧ terminator ∈ terminators

theorem expandBytes_eq {content : List UInt8} {statement : Span} (inside : statement.stop ≤ content.length) :
    expandBytes content statement =
      Span.between (statement.start - leadingBytes (content.take statement.start).reverse)
        (statement.stop + trailingBytes (content.drop statement.stop)) := by
  have ordered := statement.start_le_stop
  have first : min statement.start content.length = statement.start := by omega
  have last : max statement.start (min statement.stop content.length) = statement.stop := by omega
  simp only [expandBytes, first, last]

theorem expandBytes_takes {content : List UInt8} {statement : Span}
    (inside : statement.stop ≤ content.length) :
    Takes content statement (expandBytes content statement) := by
  have ordered := statement.start_le_stop
  obtain ⟨lead, front, before, leadLength, leadBlank, begins⟩ :=
    leadingBytes_spec (content.take statement.start).reverse
  obtain ⟨trail, terminator, back, after, trailLength, trailBlank, ends⟩ :=
    trailingBytes_spec (content.drop statement.stop)
  have before : content.take statement.start = front.reverse ++ lead.reverse := by
    rw [← List.reverse_append, ← before, List.reverse_reverse]
  have beforeSize := congrArg List.length before
  have afterSize := congrArg List.length after
  simp only [List.length_take, List.length_drop, List.length_append, List.length_reverse]
    at beforeSize afterSize
  rw [List.length_append] at trailLength
  have start : (expandBytes content statement).start = front.length := by
    rw [expandBytes_eq inside, Span.between, leadLength]
    dsimp only
    omega
  have stop : (expandBytes content statement).stop = statement.stop + (trail.length + terminator.length) := by
    rw [expandBytes_eq inside, Span.between, trailLength]
    dsimp only
    omega
  have leadParts : content = front.reverse ++ (lead.reverse ++ content.drop statement.start) := by
    rw [← List.append_assoc, ← before, List.take_append_drop]
  have trailParts : content = content.take statement.stop ++ ((trail ++ terminator) ++ back) := by
    rw [List.append_assoc, ← after, List.take_append_drop]
  refine ⟨by omega, by omega, by omega, ?_, ?_, trail, terminator, ?_, trailBlank, ends⟩
  · have taken : content.extract front.length statement.start = lead.reverse := by
      rw [leadParts]
      exact extract_of_parts _ (List.length_reverse) (by rw [List.length_reverse]; omega)
    rw [start, taken]
    exact fun byte member => leadBlank byte (List.mem_reverse.mp member)
  · rcases begins with rfl | begins
    · exact .inl (by rw [start]; simp at beforeSize; omega)
    · cases front with
      | nil => exact .inr (.inl start)
      | cons byte others =>
          obtain rfl := begins byte rfl
          right
          right
          rw [start, leadParts]
          simp
  · rw [stop, trailParts]
    exact extract_of_parts _ (by rw [List.length_take]; omega) (by rw [List.length_append])

/-! Statements and their removals do not meet. -/

def isSolid (byte : UInt8) : Bool :=
  !isBlankByte byte && byte != carriageReturn && byte != lineFeed

/-- A statement within the text that begins and ends with a byte that is no blank and ends no line. -/
structure Solid (content : List UInt8) (statement : Span) : Prop where
  filled : statement.start < statement.stop
  inside : statement.stop ≤ content.length
  first : ∃ byte, content[statement.start]? = some byte ∧ isSolid byte = true
  last : ∃ byte, content[statement.stop - 1]? = some byte ∧ isSolid byte = true

theorem mem_extract {content : List UInt8} {start stop place : Nat} {byte : UInt8}
    (from_ : start ≤ place) (upTo : place < stop) (here : content[place]? = some byte) :
    byte ∈ content.extract start stop := by
  rw [List.extract_eq_take_drop]
  refine List.mem_of_getElem? (i := place - start) ?_
  rw [List.getElem?_take_of_lt (by omega), List.getElem?_drop, Nat.add_sub_cancel' from_, here]

section Takes

variable {content : List UInt8} {statement removal : Span} (takes : Takes content statement removal)
  {place : Nat} {byte : UInt8} (here : content[place]? = some byte)

include takes here

theorem Takes.lead_at (from_ : removal.start ≤ place) (upTo : place < statement.start) :
    isBlankByte byte = true :=
  takes.lead byte (mem_extract from_ upTo here)

/-- A line feed behind the statement is the last byte that goes. -/
theorem Takes.trail_at (from_ : statement.stop ≤ place) (upTo : place < removal.stop) :
    isBlankByte byte = true ∨ byte = carriageReturn ∨ byte = lineFeed ∧ place + 1 = removal.stop := by
  obtain ⟨blanks, terminator, taken, blank, ends⟩ := takes.trail
  have length := congrArg List.length taken
  have inside := takes.inside
  rw [List.extract_eq_take_drop, List.length_take, List.length_drop, List.length_append] at length
  have found : (blanks ++ terminator)[place - statement.stop]? = some byte := by
    rw [← taken, List.extract_eq_take_drop, List.getElem?_take_of_lt (by omega), List.getElem?_drop,
      Nat.add_sub_cancel' from_, here]
  rw [List.getElem?_append] at found
  split at found
  · exact .inl (blank byte (List.mem_of_getElem? found))
  next beyond =>
    right
    simp only [terminators, List.mem_cons, List.not_mem_nil, or_false] at ends
    have index := (List.getElem?_eq_some_iff.mp found).1
    rcases ends with rfl | rfl | rfl
    · simp at found
    · simp only [List.length_cons, List.length_nil] at index length
      rw [Nat.lt_one_iff.mp index] at found
      exact .inr ⟨(Option.some.inj found).symm, by omega⟩
    · simp only [List.length_cons, List.length_nil] at index length
      rcases Nat.le_one_iff_eq_zero_or_eq_one.mp (Nat.lt_succ_iff.mp index) with zero | one
      · rw [zero] at found
        exact .inl (Option.some.inj found).symm
      · rw [one] at found
        exact .inr ⟨(Option.some.inj found).symm, by omega⟩

end Takes

theorem isSolid_iff {byte : UInt8} :
    isSolid byte = true ↔ isBlankByte byte = false ∧ byte ≠ carriageReturn ∧ byte ≠ lineFeed := by
  rw [isSolid, Bool.and_eq_true, Bool.and_eq_true, Bool.not_eq_true', bne_iff_ne, bne_iff_ne, and_assoc]

theorem isBlankByte_lineFeed : isBlankByte lineFeed = false := rfl

/-- A removal ends before the removal of a later statement begins. -/
theorem Takes.stop_le {content : List UInt8} {statement removal later laterRemoval : Span}
    (takes : Takes content statement removal) (laterTakes : Takes content later laterRemoval)
    (solid : Solid content statement) (laterSolid : Solid content later)
    (ordered : statement.stop ≤ later.start) : removal.stop ≤ laterRemoval.start := by
  obtain ⟨first, atFirst, firstSolid⟩ := laterSolid.first
  obtain ⟨last, atLast, lastSolid⟩ := solid.last
  obtain ⟨firstOther, firstReturn, firstFeed⟩ := isSolid_iff.mp firstSolid
  obtain ⟨lastOther, -, lastFeed⟩ := isSolid_iff.mp lastSolid
  have filled := solid.filled
  have upTo : removal.stop ≤ later.start := by
    by_contra beyond
    rcases takes.trail_at atFirst ordered (Nat.not_le.mp beyond) with blank | return_ | ⟨feed, -⟩
    · simp [blank] at firstOther
    · exact firstReturn return_
    · exact firstFeed feed
  have behind : statement.stop ≤ laterRemoval.start := by
    by_contra before
    have blank := laterTakes.lead_at atLast (by omega) (by omega)
    simp [blank] at lastOther
  -- The later removal begins with its statement, or at a line feed that the earlier one leaves or ends with.
  rcases laterTakes.lineStart with same | atStart | feed
  · omega
  · omega
  · by_contra beyond
    by_cases atLast' : laterRemoval.start = statement.stop
    · rw [atLast', atLast] at feed
      exact lastFeed (Option.some.inj feed)
    · rcases takes.trail_at feed (by omega) (by omega) with blank | return_ | ⟨-, ends⟩
      · simp [isBlankByte_lineFeed] at blank
      · exact absurd return_ (by decide)
      · omega

/-! Deleting. -/

def cut {α : Type} (content : List α) (span : Span) : List α :=
  content.take span.start ++ content.drop span.stop

/-- The content without the spans, which are cut out from the last to the first. -/
def deleted (spans : List Span) (content : List UInt8) : List UInt8 :=
  (spans.mergeSort fun left right => left.start ≤ right.start).foldr (fun span rest => cut rest span) content

/-- The place of the byte lies in none of the spans. -/
def spared (spans : List Span) (entry : UInt8 × Nat) : Bool :=
  decide (∀ span ∈ spans, ¬span.Contains entry.2)

/-- The bytes at the places that lie in none of the spans. -/
def outside (spans : List Span) (content : List UInt8) : List UInt8 :=
  (content.zipIdx.filter (spared spans)).map (·.1)

theorem spared_iff {spans : List Span} {entry : UInt8 × Nat} :
    spared spans entry = true ↔ ∀ span ∈ spans, ¬span.Contains entry.2 :=
  decide_eq_true_iff

theorem cut_map {α β : Type} (f : α → β) (content : List α) (span : Span) :
    cut (content.map f) span = (cut content span).map f := by
  rw [cut, cut, List.map_append, List.map_take, List.map_drop]

theorem foldr_cut_map {α β : Type} (f : α → β) (content : List α) (spans : List Span) :
    spans.foldr (fun span rest => cut rest span) (content.map f) =
      (spans.foldr (fun span rest => cut rest span) content).map f := by
  induction spans with
  | nil => rfl
  | cons span spans ih => rw [List.foldr_cons, List.foldr_cons, ih, cut_map]

theorem lt_of_mem_take {content : List UInt8} {bound : Nat} {entry : UInt8 × Nat}
    (member : entry ∈ content.zipIdx.take bound) : entry.2 < bound := by
  obtain ⟨place, found⟩ := List.mem_iff_getElem?.mp member
  rw [List.getElem?_take] at found
  split at found
  next inside =>
    rw [List.getElem?_zipIdx, Option.map_eq_some_iff] at found
    obtain ⟨byte, -, rfl⟩ := found
    simpa using inside
  next => simp at found

theorem le_of_mem_drop {content : List UInt8} {bound : Nat} {entry : UInt8 × Nat}
    (member : entry ∈ content.zipIdx.drop bound) : bound ≤ entry.2 := by
  obtain ⟨place, found⟩ := List.mem_iff_getElem?.mp member
  rw [List.getElem?_drop, List.getElem?_zipIdx, Option.map_eq_some_iff] at found
  obtain ⟨byte, -, rfl⟩ := found
  omega

theorem cut_eq_filter {front middle back : List (UInt8 × Nat)} {span : Span}
    (first : front.length = span.start) (second : (front ++ middle).length = span.stop)
    (before : ∀ entry ∈ front, entry.2 < span.start) (covered : ∀ entry ∈ middle, span.Contains entry.2)
    (behind : ∀ entry ∈ back, span.stop ≤ entry.2) :
    cut (front ++ middle ++ back) span = (front ++ middle ++ back).filter (spared [span]) := by
  have all : front.filter (spared [span]) = front := by
    refine List.filter_eq_self.mpr fun entry member => spared_iff.mpr fun other isSpan contains => ?_
    rw [List.mem_singleton] at isSpan
    subst isSpan
    exact absurd contains.1 (Nat.not_le.mpr (before entry member))
  have none_ : middle.filter (spared [span]) = [] := by
    refine List.filter_eq_nil_iff.mpr fun entry member spares => ?_
    exact spared_iff.mp spares span List.mem_cons_self (covered entry member)
  have rest : back.filter (spared [span]) = back := by
    refine List.filter_eq_self.mpr fun entry member => spared_iff.mpr fun other isSpan contains => ?_
    rw [List.mem_singleton] at isSpan
    subst isSpan
    exact absurd contains.2 (Nat.not_lt.mpr (behind entry member))
  rw [List.filter_append, List.filter_append, all, none_, rest, List.append_nil, cut, List.drop_left' second,
    List.append_assoc, List.take_left' first]

/-- Cutting from the last span to the first leaves what lies in none of them. -/
theorem foldr_cut {content : List UInt8} {spans : List Span}
    (apart : spans.Pairwise fun left right => left.stop ≤ right.start)
    (inside : ∀ span ∈ spans, span.stop ≤ content.length) :
    spans.foldr (fun span rest => cut rest span) content.zipIdx = content.zipIdx.filter (spared spans) := by
  induction spans with
  | nil => exact (List.filter_eq_self.mpr fun entry _ => spared_iff.mpr (by simp)).symm
  | cons span spans ih =>
      obtain ⟨here, inside⟩ := List.forall_mem_cons.mp inside
      obtain ⟨beyond, apart⟩ := List.pairwise_cons.mp apart
      have ordered := span.start_le_stop
      have both : spared (span :: spans) = fun entry => spared [span] entry && spared spans entry := by
        funext entry
        simp only [spared, List.forall_mem_cons, List.not_mem_nil, false_imp_iff, implies_true, and_true,
          Bool.decide_and]
      -- In front of the end of the first span none of the others cuts anything.
      have front : (content.zipIdx.take span.stop).filter (spared spans) = content.zipIdx.take span.stop := by
        refine List.filter_eq_self.mpr fun entry member => spared_iff.mpr fun other isOther contains => ?_
        have below := lt_of_mem_take member
        have after := beyond other isOther
        have from_ := contains.1
        omega
      have halves := List.take_append_drop span.start (content.zipIdx.take span.stop)
      rw [List.take_take, Nat.min_eq_left ordered] at halves
      have kept := List.filter_append (p := spared spans) (content.zipIdx.take span.stop)
        (content.zipIdx.drop span.stop)
      rw [List.take_append_drop, front, ← halves] at kept
      rw [List.foldr_cons, ih apart inside, both, ← List.filter_filter, kept]
      refine cut_eq_filter ?_ ?_ ?_ ?_ ?_
      · rw [List.length_take, List.length_zipIdx]
        omega
      · rw [halves, List.length_take, List.length_zipIdx]
        omega
      · exact fun entry member => lt_of_mem_take member
      · intro entry member
        have below := lt_of_mem_take (List.mem_of_mem_drop member)
        rw [List.drop_take] at member
        exact ⟨le_of_mem_drop (List.mem_of_mem_take member), below⟩
      · exact fun entry member => le_of_mem_drop (List.mem_filter.mp member).1

theorem deleted_eq {content : List UInt8} {spans : List Span}
    (apart : spans.Pairwise fun left right => ¬left.Overlaps right)
    (inside : ∀ span ∈ spans, span.start < span.stop ∧ span.stop ≤ content.length) :
    deleted spans content = outside spans content := by
  let order := spans.mergeSort fun left right => left.start ≤ right.start
  have perm : order.Perm spans := List.mergeSort_perm spans _
  have sorted : order.Pairwise fun left right => left.start ≤ right.start := by
    refine (List.pairwise_mergeSort ?_ ?_ spans).imp of_decide_eq_true
    · intro first second third left right
      exact decide_eq_true (Nat.le_trans (of_decide_eq_true left) (of_decide_eq_true right))
    · intro left right
      simpa using Nat.le_total left.start right.start
  have apart : order.Pairwise fun left right => ¬left.Overlaps right :=
    perm.symm.pairwise apart fun free overlap => free overlap.symm
  have behind : order.Pairwise fun left right => left.stop ≤ right.start := by
    refine (sorted.and apart).imp_of_mem fun {left right} _ isRight both => ?_
    have filled := (inside right (perm.mem_iff.mp isRight)).1
    by_contra meets
    exact both.2 ⟨by omega, by omega⟩
  have cuts := foldr_cut_map Prod.fst content.zipIdx order
  rw [List.zipIdx_map_fst, foldr_cut behind fun span member => (inside span (perm.mem_iff.mp member)).2] at cuts
  have same : spared order = spared spans := by
    funext entry
    simp only [spared, perm.mem_iff]
  rw [outside, ← same]
  exact cuts

/-! The lines of a statement. -/

/-- The statement stands alone on its lines: between blanks, behind the beginning of a line and in front of a
terminator or the end of the text. -/
structure OwnLines (content : List UInt8) (statement : Span) (front lead trail terminator back : List UInt8) :
    Prop where
  before : content.take statement.start = front ++ lead
  after : content.drop statement.stop = trail ++ (terminator ++ back)
  leadBlank : ∀ byte ∈ lead, isBlankByte byte = true
  trailBlank : ∀ byte ∈ trail, isBlankByte byte = true
  begins : ∀ byte ∈ front.getLast?, byte = lineFeed
  ends : terminator = [lineFeed] ∨ terminator = [carriageReturn, lineFeed] ∨ terminator = [] ∧ back = []

theorem OwnLines.expandBytes {content front lead trail terminator back : List UInt8} {statement : Span}
    (inside : statement.stop ≤ content.length)
    (own : OwnLines content statement front lead trail terminator back) :
    (expandBytes content statement).start = front.length ∧
      (expandBytes content statement).stop + back.length = content.length := by
  have ordered := statement.start_le_stop
  have before : (content.take statement.start).reverse = lead.reverse ++ front.reverse := by
    rw [own.before, List.reverse_append]
  have leading : leadingBytes (content.take statement.start).reverse = lead.length := by
    rw [before, leadingBytes_of_blanks, List.length_reverse]
    · exact fun byte member => own.leadBlank byte (List.mem_reverse.mp member)
    · rw [List.head?_reverse]
      exact own.begins
  have trailing : trailingBytes (content.drop statement.stop) = (trail ++ terminator).length := by
    rw [own.after]
    refine trailingBytes_of_blanks own.trailBlank ?_ ?_
    · rcases own.ends with rfl | rfl | ⟨rfl, -⟩ <;> simp [terminators]
    · rintro rfl
      rcases own.ends with feed | return_ | ⟨-, nothing⟩
      · simp at feed
      · simp at return_
      · exact nothing
  have beforeSize := congrArg List.length own.before
  have afterSize := congrArg List.length own.after
  simp only [List.length_take, List.length_drop, List.length_append] at beforeSize afterSize trailing
  rw [expandBytes_eq inside, Span.between, leading, trailing]
  dsimp only
  omega

/-- Statements of a text that do not meet, each beginning and ending with a byte that is no blank and ends no
line. Each removal takes its statement and beside it only blanks and one line terminator, the removals do not
meet either, deleting them leaves the bytes in none of them in order, and a statement that stands alone on its
lines goes with these lines and their last terminator. -/
theorem removals_apart {text : String} {statements : List Span}
    (solid : ∀ statement ∈ statements, Solid (bytes text) statement)
    (apart : statements.Pairwise fun left right => ¬left.Overlaps right) :
    let content := bytes text
    let removal := expandRemoval text.toList
    (∀ statement ∈ statements, Takes content statement (removal statement)) ∧
    ((statements.map removal).Pairwise fun left right => ¬left.Overlaps right) ∧
    deleted (statements.map removal) content = outside (statements.map removal) content ∧
    ∀ statement ∈ statements, ∀ front lead trail terminator back,
      OwnLines content statement front lead trail terminator back →
        (removal statement).start = front.length ∧
          (removal statement).stop + back.length = content.length := by
  intro content removal
  have grown : ∀ statement, removal statement = expandBytes content statement := by
    intro statement
    exact (expandRemoval_bytes text.toList statement).trans (by rw [← bytes_eq])
  have takes : ∀ statement ∈ statements, Takes content statement (removal statement) := by
    intro statement member
    rw [grown]
    exact expandBytes_takes (solid statement member).inside
  have free : (statements.map removal).Pairwise fun left right => ¬left.Overlaps right := by
    refine List.pairwise_map.mpr (apart.imp_of_mem fun {left right} isLeft isRight disjoint overlap => ?_)
    have leftFilled := (solid left isLeft).filled
    have rightFilled := (solid right isRight).filled
    by_cases ordered : left.stop ≤ right.start
    · have below := (takes left isLeft).stop_le (takes right isRight) (solid left isLeft) (solid right isRight)
        ordered
      exact absurd overlap.2 (Nat.not_lt.mpr below)
    · have before : right.stop ≤ left.start := by
        by_contra meets
        exact disjoint ⟨by omega, by omega⟩
      have below := (takes right isRight).stop_le (takes left isLeft) (solid right isRight) (solid left isLeft)
        before
      exact absurd overlap.1 (Nat.not_lt.mpr below)
  refine ⟨takes, free, deleted_eq free ?_, ?_⟩
  · intro span member
    obtain ⟨statement, isStatement, rfl⟩ := List.mem_map.mp member
    have here := takes statement isStatement
    have filled := (solid statement isStatement).filled
    have start := here.start_le
    have stop := here.le_stop
    exact ⟨by omega, here.inside⟩
  · intro statement member front lead trail terminator back own
    rw [grown]
    exact own.expandBytes (solid statement member).inside

/-- Two statements on one line, and one that stands alone on the next line. -/
theorem removals_apart_neighbours :
    let text := "a; b;\r\n\tc; \n"
    let statements : List Span := [⟨0, 2, by omega⟩, ⟨3, 5, by omega⟩, ⟨8, 10, by omega⟩]
    let removals := statements.map (expandRemoval text.toList)
    removals = [⟨0, 2, by omega⟩, ⟨3, 7, by omega⟩, ⟨7, 12, by omega⟩] ∧
      (removals.Pairwise fun left right => ¬left.Overlaps right) ∧
      deleted removals (bytes text) = [32] := by
  intro text statements removals
  have content : bytes text = [97, 59, 32, 98, 59, 13, 10, 9, 99, 59, 32, 10] := by
    rw [bytes_eq]
    decide
  have solid : ∀ statement ∈ statements, Solid (bytes text) statement := by
    rw [content]
    simp only [statements, List.forall_mem_cons, List.not_mem_nil, false_imp_iff, implies_true, and_true]
    refine ⟨⟨?_, ?_, ⟨97, rfl, rfl⟩, ⟨59, rfl, rfl⟩⟩, ⟨?_, ?_, ⟨98, rfl, rfl⟩, ⟨59, rfl, rfl⟩⟩,
      ⟨?_, ?_, ⟨99, rfl, rfl⟩, ⟨59, rfl, rfl⟩⟩⟩ <;> decide
  obtain ⟨-, apart, deleted, -⟩ := removals_apart solid (by decide)
  refine ⟨by decide, apart, deleted.trans ?_⟩
  rw [content]
  decide

end Requalify.Text
