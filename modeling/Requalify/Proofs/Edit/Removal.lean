import Mathlib.Data.List.Induction
import Requalify.Proofs.Run
import Requalify.Proofs.Token.Rewritten

/-!
Removing using-statements, as it shows in the tokens. The blanks that go with a statement are chunks of
their own, so a removal takes whole chunks, and of the tokens only those of its statement. The other
tokens stay if what comes together behind the removal makes no new token and no directive.
-/

namespace Requalify

namespace Chunk

variable {fresh : Bool} {after : List Char}

theorem blank_of_first {chunk : Chunk} (stands : chunk.StandsBefore fresh after)
    (isBlank : Text.isAsciiBlank chunk.first = true) : chunk.kind = none ∧ chunk.rest = [] := by
  obtain ⟨kind, c, rest⟩ := chunk
  have piece : Piece.first fresh c (rest ++ after) = .gap 0 := by
    unfold Piece.first
    exact if_pos isBlank
  rw [StandsBefore, piece] at stands
  cases kind with
  | none => exact ⟨rfl, List.length_eq_zero_iff.mp (Piece.gap.inj stands).symm⟩
  | some kind => simp [Piece.ofKind] at stands

/-- Blanks at the beginning of a text are chunks of their own. -/
theorem exists_blanks_ahead {chunks : List Chunk} {blanks rest : List Char}
    (reads : Reads fresh after chunks) (parts : flatten chunks = blanks ++ rest)
    (isBlank : ∀ c ∈ blanks, Text.isAsciiBlank c = true) :
    ∃ front back, chunks = front ++ back ∧ flatten front = blanks ∧ flatten back = rest ∧
      ∀ chunk ∈ front, chunk.kind = none ∧ chunk.rest = [] := by
  induction blanks generalizing fresh chunks with
  | nil => exact ⟨[], chunks, rfl, rfl, parts, by simp⟩
  | cons c blanks ih =>
      cases chunks with
      | nil => simp at parts
      | cons chunk chunks =>
          obtain ⟨stands, reads⟩ := reads
          have first : chunk.first = c := (List.cons.inj parts).1
          have blank := blank_of_first stands (first ▸ isBlank c (by simp))
          have parts' : flatten chunks = blanks ++ rest := by
            simpa [text, blank.2, first] using parts
          obtain ⟨front, back, rfl, frontText, backText, blanks'⟩ :=
            ih reads parts' fun d member => isBlank d (by simp [member])
          refine ⟨chunk :: front, back, rfl, ?_, backText, List.forall_mem_cons.mpr ⟨blank, blanks'⟩⟩
          rw [flatten_cons, frontText, text, first, blank.2]
          rfl

/-- So are blanks in front of something else on their line. -/
theorem exists_blanks_behind {chunks : List Chunk} {rest blanks : List Char} {d : Char}
    (reads : Reads fresh after chunks) (parts : flatten chunks = rest ++ blanks)
    (horizontal : ∀ c ∈ blanks, Text.isHorizontal c = true) (goesOn : after.head? = some d)
    (sameLine : d ≠ '\n') :
    ∃ front back, chunks = front ++ back ∧ flatten front = rest ∧ flatten back = blanks ∧
      ∀ chunk ∈ back, chunk.kind = none := by
  induction blanks using List.reverseRecOn generalizing chunks after d with
  | nil => exact ⟨chunks, [], by simp, by simpa using parts, rfl, by simp⟩
  | append_singleton blanks c ih =>
      have isHorizontal := horizontal c (by simp)
      rcases List.eq_nil_or_concat chunks with rfl | ⟨chunks, chunk, rfl⟩
      · simp at parts
      rw [List.concat_eq_append] at reads parts ⊢
      obtain ⟨reads, stands, -⟩ := reads_append.mp reads
      have lastEq : chunk.last = c := by
        have lasts := congrArg List.getLast? parts
        simpa [text_getLast?] using lasts
      obtain ⟨kind, single⟩ := StandsBefore.blank stands
        (by rw [lastEq]; exact Patch.blank_of_horizontal isHorizontal) goesOn sameLine
      have chunkText : chunk.text = [c] := by
        have first : chunk.first = c := by simpa [last, single] using lastEq
        rw [text, first, single]
      have parts' : flatten chunks = rest ++ blanks := by
        simpa [chunkText, ← List.append_assoc] using parts
      obtain ⟨front, back, rfl, frontText, backText, blanks'⟩ := ih reads parts'
        (fun d member => horizontal d (by simp [member])) (d := c) (by simp [chunkText])
        (by rintro rfl; exact absurd isHorizontal (by decide))
      refine ⟨front, back ++ [chunk], by simp, frontText, by simp [backText, chunkText], ?_⟩
      intro other member
      rcases List.mem_append.mp member with inBack | isChunk
      · exact blanks' other inBack
      · rw [List.mem_singleton.mp isChunk]
        exact kind

/-- The chunks that `removal` takes with `statement`, those of `middle` and the blanks around them. -/
structure Removed (whole : List Chunk) (statement removal : Span)
    (front lead middle trail back : List Chunk) : Prop where
  parts : whole = front ++ (lead ++ (middle ++ trail) ++ back)
  start : Text.byteLength (flatten front) = removal.start
  statementStart : Text.byteLength (flatten (front ++ lead)) = statement.start
  statementStop : Text.byteLength (flatten (front ++ (lead ++ middle))) = statement.stop
  stop : Text.byteLength (flatten (front ++ (lead ++ (middle ++ trail)))) = removal.stop
  leadBlank : ∀ chunk ∈ lead, chunk.kind = none
  trailBlank : ∀ chunk ∈ trail, chunk.kind = none ∧ chunk.rest = []
  opens : (flatten middle).head?.any Piece.isNameStart = true
  closes : (flatten middle).getLast? = some ';'
  lineStart : lead = [] ∨
    ((flatten front).getLast? = none ∨ (flatten front).getLast? = some '\n') ∧
      ∃ c, (flatten lead).head? = some c ∧ c ≠ '\n'

theorem exists_removed {whole front middle back : List Chunk} (reads : Reads true [] whole)
    (parts : whole = front ++ (middle ++ back)) {statement : Span}
    (start : Text.byteLength (flatten front) = statement.start)
    (stop : Text.byteLength (flatten (front ++ middle)) = statement.stop)
    (opens : (flatten middle).head?.any Piece.isNameStart = true)
    (closes : (flatten middle).getLast? = some ';') :
    ∃ front' lead trail back', Removed whole statement
      (Text.expandRemoval (flatten whole) statement) front' lead middle trail back' := by
  have stop' : statement.stop =
      Text.byteLength (flatten front) + Text.byteLength (flatten middle) := by
    rw [← stop, flatten_append, Text.byteLength_append]
  obtain ⟨frontText, leadText, trailText, backText, frontParts, backParts, horizontal, lineStart, ends,
    removalStart, removalStop⟩ := Text.expandRemoval_parts (flatten back) start.symm stop'
  rw [← flatten_append, ← flatten_append, ← parts] at removalStart removalStop
  rw [parts, reads_append, reads_append] at reads
  obtain ⟨frontReads, -, backReads⟩ := reads
  obtain ⟨d, goesOn, sameLine⟩ : ∃ d, (flatten middle).head? = some d ∧ d ≠ '\n' := by
    cases first : (flatten middle).head? with
    | none => simp [first] at opens
    | some d =>
        refine ⟨d, rfl, ?_⟩
        rintro rfl
        rw [first] at opens
        exact absurd opens (by decide)
  obtain ⟨front', lead, rfl, rfl, rfl, leadBlank⟩ := exists_blanks_behind frontReads frontParts
    horizontal (d := d) (by simp [goesOn]) sameLine
  have trailBlank : ∀ c ∈ trailText, Text.isAsciiBlank c = true := by
    intro c member
    obtain ⟨passed, behind, parts⟩ := List.append_of_mem member
    rcases ends passed c behind parts with isHorizontal | rfl | ⟨rfl, -⟩
    · exact Patch.blank_of_horizontal isHorizontal
    · rfl
    · rfl
  obtain ⟨trail, back', rfl, rfl, rfl, trailChunks⟩ := exists_blanks_ahead backReads backParts trailBlank
  refine ⟨front', lead, trail, back', ?_, removalStart.symm, start, ?_, ?_, leadBlank, trailChunks,
    opens, closes, ?_⟩
  · simp [parts]
  · rw [← stop, List.append_assoc]
  · rw [removalStop, ← stop]
    simp [Nat.add_assoc]
  · cases lead with
    | nil => exact .inl rfl
    | cons chunk lead =>
        refine .inr ⟨?_, chunk.first, rfl, ?_⟩
        · rcases lineStart with nothing | atStart | ⟨others, feed⟩
          · simp [text] at nothing
          · exact .inl (by rw [atStart]; rfl)
          · exact .inr (by simp [feed])
        · have isHorizontal := horizontal chunk.first (by simp [text])
          rintro feed
          rw [feed] at isHorizontal
          exact absurd isHorizontal (by decide)

end Chunk

/-- Leaving out `removal` brings nothing together: it begins and ends at the beginning of a line, or what
then follows makes no token with the character in front, and leads to no `#` on its line. -/
def Source.closesUp (source : Source) (patches : List Patch) (removal : Span) : Bool :=
  match Text.splitAt? source.text.toList removal.start,
      Text.splitAt? source.text.toList removal.stop with
  | some (before, _), some (upTo, after) =>
      let behind := Patch.rewriteFrom patches removal.stop after
      (before.getLast?.all (· == '\n') && upTo.getLast? == some '\n') ||
        (!joins before.getLast? behind.head? && !reachesHash false behind)
  | _, _ => false

namespace Chunk

variable {source : Source} {patches : List Patch} {whole : List Chunk} {statement removal : Span}
  {front lead middle trail back : List Chunk}

theorem Removed.border (removed : Removed whole statement removal front lead middle trail back)
    (parts : flatten whole = source.text.toList) (closes : source.closesUp patches removal = true) :
    Border (flatten front).getLast? (lead ++ (middle ++ trail)) [] (flatten back)
      (Patch.rewriteFrom patches removal.stop (flatten back)) := by
  have atStart : Text.splitAt? source.text.toList removal.start =
      some (flatten front, flatten (lead ++ (middle ++ trail) ++ back)) := by
    rw [Text.splitAt?_eq_some_iff, ← parts, removed.parts, flatten_append]
    exact ⟨rfl, removed.start⟩
  have atStop : Text.splitAt? source.text.toList removal.stop =
      some (flatten (front ++ (lead ++ (middle ++ trail))), flatten back) := by
    rw [Text.splitAt?_eq_some_iff, ← parts, removed.parts, ← List.append_assoc, ← flatten_append]
    exact ⟨rfl, removed.stop⟩
  rw [Source.closesUp, atStart, atStop] at closes
  simp only [Bool.or_eq_true, Bool.and_eq_true, Bool.not_eq_true', beq_iff_eq] at closes
  refine ⟨?_, fun fresh => trivial, by simp, ?_⟩
  · rcases removed.lineStart with rfl | ⟨lineStart, c, first, sameLine⟩
    · refine .word ?_ ?_
      · have opens := removed.opens
        cases first : (flatten middle).head? with
        | none => simp [first] at opens
        | some c => simpa [first] using opens
      · rcases closes with ⟨lineStart, -⟩ | ⟨apart, -⟩
        · cases last : (flatten front).getLast? with
          | none => rfl
          | some c =>
              obtain rfl : c = '\n' := by simpa [last] using lineStart
              rfl
        · exact apart
    · exact .line lineStart c (by simp [first]) sameLine
  · rcases closes with ⟨lineStart, feed⟩ | ⟨-, other⟩
    · refine .wholeLines ?_ ?_ rfl
      · cases last : (flatten front).getLast? with
        | none => exact .inl rfl
        | some c => exact .inr (by simpa [last] using lineStart)
      · have ends := removed.closes
        rcases List.eq_nil_or_concat trail with rfl | ⟨trail, chunk, rfl⟩
        · simp [ends] at feed
        · obtain ⟨kind, single⟩ := removed.trailBlank chunk (by simp)
          have first : chunk.first = '\n' := by
            simpa [text_getLast?, last, single] using feed
          have same : chunk = ⟨none, '\n', []⟩ := by
            rw [← kind, ← first, ← single]
          simp [same]
    · exact .noHash other

theorem Removed.contains (removed : Removed whole statement removal front lead middle trail back)
    {place : Nat} (inside : statement.Contains place) : removal.Contains place := by
  have start := removed.start
  have statementStart := removed.statementStart
  have statementStop := removed.statementStop
  have stop := removed.stop
  simp only [flatten_append, Text.byteLength_append] at start statementStart statementStop stop
  simp only [Span.Contains] at inside ⊢
  omega

/-- A removal rewrites the chunks that it takes to nothing. -/
theorem Removed.rewrites (removed : Removed whole statement removal front lead middle trail back)
    {replace : Token → List (TokenKind × String)}
    (gone : ∀ place, removal.Contains place →
      Patch.insertedAt patches place = [] ∧ Patch.covers patches place = true)
    (leaves : ∀ token : Token, statement.Contains token.start → replace token = [])
    (border : Border (flatten front).getLast? (lead ++ (middle ++ trail)) [] (flatten back)
      (Patch.rewriteFrom patches removal.stop (flatten back))) :
    Rewrites patches replace front (lead ++ (middle ++ trail)) [] back := by
  have size := removed.stop
  rw [flatten_append, Text.byteLength_append, removed.start] at size
  refine ⟨?_, ?_, ?_, fun result text edited => edited_of_border border ?_ edited⟩
  · intro nothing
    have opens := removed.opens
    simp only [List.append_eq_nil_iff] at nothing
    simp [nothing] at opens
  · refine Patch.rewriteFrom_gone fun place from_ upTo => gone place ⟨?_, ?_⟩
    · exact removed.start ▸ from_
    · rw [removed.start] at upTo
      omega
  · have middleGone : (tokens statement.start middle).flatMap replace = [] := by
      refine List.flatMap_eq_nil_iff.mpr fun token member => leaves token ?_
      have stop := removed.statementStop
      have start := removed.statementStart
      obtain ⟨from_, upTo⟩ := start_of_mem_tokens member
      simp only [flatten_append, Text.byteLength_append] at start stop
      exact ⟨from_, by omega⟩
    have start := removed.statementStart
    rw [flatten_append, Text.byteLength_append] at start
    rw [tokens_append, tokens_append, tokens_of_gaps removed.leadBlank, start,
      tokens_of_gaps fun chunk member => (removed.trailBlank chunk member).1]
    simpa using middleGone
  · rw [text, removed.stop]

end Chunk

namespace Edit

variable {policy : Policy} {source : Source}

theorem ofUsing_eq_some {statement : UsingStatement} {edit : Edit}
    (asked : ofUsing policy source statement = some edit) :
    ∃ extent, statement.extent? source.text = some extent ∧
      edit.patch = Patch.remove (Text.expandRemoval source.text.toList extent.statement)
        removeUsingLabel := by
  unfold ofUsing at asked
  split at asked
  next => simp at asked
  next extent found =>
    split at asked
    next => simp at asked
    next => exact ⟨extent, found, by rw [← Option.some.inj asked]⟩

open Chunk Piece in
/-- The statement of a landmark is removed with the blanks around it. -/
theorem exists_removed {print : Footprint} {statement : UsingStatement} {edit : Edit}
    {whole : List Chunk} (parts : flatten whole = source.text.toList) (reads : Reads true [] whole)
    (within : print.tokens <:+ tokenize source.text) (keyword : print.first.kind = .keyword)
    (start : statement.start = print.first.start) (stop : statement.stop = print.last.stop)
    (asked : ofUsing policy source statement = some edit) :
    ∃ extent, statement.extent? source.text = some extent ∧ edit.patch.text = "" ∧
      ∃ front lead middle trail back,
        Removed whole extent.statement edit.patch.span front lead middle trail back := by
  obtain ⟨extent, found, patch⟩ := ofUsing_eq_some asked
  have lastPlaced := Footprint.last_placed within
  obtain ⟨semicolon, others, behind, isSemicolon, extentEq, -⟩ :=
    UsingStatement.extent?_eq_some lastPlaced stop found
  have before : print.first.stop ≤ semicolon.start :=
    Nat.le_trans (Footprint.first_stop_le within) (lastPlaced.stop_le (by simp [behind]))
  have firstMember : print.first ∈ tokenize source.text := by
    obtain ⟨rest, tokens⟩ := print.tokens_eq_cons
    exact within.subset (by simp [tokens])
  have lastMember : semicolon ∈ tokenize source.text :=
    within.subset (by simp [Footprint.tokens, behind])
  rw [tokenize_of_reads parts reads] at firstMember lastMember
  obtain ⟨front, first, middle, last, back, whole', firstKind, lastText, firstStart, lastStop⟩ :=
    exists_stretch firstMember lastMember before
  have startEq : Text.byteLength (flatten front) = extent.statement.start := by
    rw [extentEq, firstStart, ← start]
    rfl
  have stopEq : Text.byteLength (flatten (front ++ first :: (middle ++ [last]))) =
      extent.statement.stop := by
    have stop : extent.statement.stop = max statement.start semicolon.stop := by rw [extentEq]; rfl
    have firstEnds : print.first.start ≤ print.first.stop := Nat.le_add_right _ _
    have lastEnds : semicolon.start ≤ semicolon.stop := Nat.le_add_right _ _
    rw [stop, Nat.max_eq_right (by omega), lastStop]
  have opens : isNameStart first.first = true := by
    have stands := reads
    rw [whole', reads_append] at stands
    have first' := stands.2.1
    rw [StandsBefore, firstKind, keyword] at first'
    exact isNameStart_of_word (.inr rfl) first'
  have closes : last.text = [';'] := by
    obtain ⟨-, lexeme⟩ : semicolon.kind = .punctuator ∧ semicolon.text = ";" := by
      simpa [Token.isPunctuator] using isSemicolon
    rw [lastText, lexeme]
    rfl
  obtain ⟨front', lead, trail, back', removed⟩ := Chunk.exists_removed reads whole' startEq stopEq
    (by simpa [text] using opens) (by simp [closes, List.getLast?_append])
  rw [parts] at removed
  refine ⟨extent, found, by rw [patch]; rfl, front', lead, first :: (middle ++ [last]), trail,
    back', ?_⟩
  rw [patch, Patch.remove, Patch.replace_span]
  exact removed

end Edit

namespace Source

variable (source : Source) (policy : Policy)

/-- The edits for the using-statements of a source. -/
def removals : List Edit :=
  (Outline.ofText source.text).usings.filterMap fun entry => Edit.ofUsing policy source entry.statement

/-- The statements that are removed, with their semicolons. -/
def removedStatements : List Span :=
  (Outline.ofText source.text).usings.filterMap fun entry =>
    (Edit.ofUsing policy source entry.statement).bind fun _ =>
      (entry.statement.extent? source.text).map (·.statement)

/-- The tokens of the text but those of the removed statements. -/
def keptLexemes : List (TokenKind × String) :=
  ((tokenize source.text).filter fun token =>
    !(source.removedStatements policy).any (·.Contains token.start)).map Token.lexeme

/-- The text without its using-statements: all removals are recorded, and what is recorded is applied. -/
def withoutUsings? : Option String :=
  match Store.empty.addAll ((source.removals policy).map fun edit => (source, edit.patch)) with
  | .error _ => none
  | .ok store => (Patch.splice source.text (store.recorded source.path)).toOption

theorem removals_sublist (catalog : Catalog) :
    (source.removals policy).Sublist
      ((Tool.inlineNamespaces.edits policy source (Matches.ofSource catalog source)).filterMap id) := by
  have found : (Matches.ofSource catalog source).usings =
      (Outline.ofText source.text).usings.map (·.statement) := by
    rw [Matches.ofSource, Matches.ofEnvironment, Environment.ofOutline_outline]
  have same : source.removals policy =
      ((Matches.ofSource catalog source).usings.map (Edit.ofUsing policy source)).filterMap id := by
    rw [found, List.map_map, List.filterMap_map]
    rfl
  rw [same, Tool.edits, List.filterMap_append]
  exact List.sublist_append_right _ _

theorem removals_compatible :
    ((source.removals policy).map (·.patch)).Pairwise Patch.Compatible ∧
      ∀ edit ∈ source.removals policy, edit.patch.Fits source.text.toList := by
  have whole := Tool.inlineNamespaces.edits_compatible policy source Catalog.empty
  have fewer := source.removals_sublist policy Catalog.empty
  exact ⟨whole.1.sublist (fewer.map _), fun edit member => whole.2 edit (fewer.subset member)⟩

variable {source policy}

open Chunk in
theorem exists_removed {whole : List Chunk} (parts : flatten whole = source.text.toList)
    (reads : Reads true [] whole) {entry : ScopedUsing} {edit : Edit}
    (inUsings : entry ∈ (Outline.ofText source.text).usings)
    (asked : Edit.ofUsing policy source entry.statement = some edit) :
    ∃ extent, entry.statement.extent? source.text = some extent ∧ edit.patch.text = "" ∧
      ∃ front lead middle trail back,
        Removed whole extent.statement edit.patch.span front lead middle trail back := by
  obtain ⟨log, trail⟩ := Outline.ofText_trail source.text
  obtain ⟨print, inLog, landmark⟩ :=
    List.mem_map.mp (trail.statements.subset (List.mem_map_of_mem inUsings))
  have describes := (trail.valid print inLog).describes
  rw [landmark] at describes
  exact Edit.exists_removed parts reads (trail.within print inLog) describes.1 describes.2.1
    describes.2.2.1 asked

theorem flatMap_lexeme (tokens : List Token) (leaves : Token → Bool) :
    tokens.flatMap (fun token => if leaves token then [] else [token.lexeme]) =
      (tokens.filter fun token => !leaves token).map Token.lexeme := by
  induction tokens with
  | nil => rfl
  | cons token tokens ih =>
      rw [List.flatMap_cons, ih, List.filter_cons]
      cases leaves token with
      | false => rfl
      | true => rfl

open Chunk in
theorem tokens_of_closesUp (closes : ∀ edit ∈ source.removals policy,
      source.closesUp ((source.removals policy).map (·.patch)) edit.patch.span = true) :
    (tokenize (String.ofList (Patch.rewrite ((source.removals policy).map (·.patch))
      source.text.toList))).map Token.lexeme = source.keptLexemes policy := by
  obtain ⟨whole, parts, reads⟩ := exists_reads true source.text.toList
  generalize patchesEq : (source.removals policy).map (·.patch) = patches at closes ⊢
  let spans := (source.removals policy).map (·.patch.span)
  have inserted (place : Nat) : Patch.insertedAt patches place = [] := by
    refine List.flatMap_eq_nil_iff.mpr fun patch member => ?_
    rw [← patchesEq] at member
    obtain ⟨edit, inRemovals, rfl⟩ := List.mem_map.mp (List.mem_filter.mp member).1
    obtain ⟨entry, inUsings, asked⟩ := List.mem_filterMap.mp inRemovals
    obtain ⟨-, -, text, -⟩ := exists_removed parts reads inUsings asked
    rw [text]
    rfl
  have covers (place : Nat) : Patch.covers patches place = true ↔
      ∃ span ∈ spans, span.Contains place := by
    simp [Patch.covers, ← patchesEq, spans]
  rw [← parts, keptLexemes, ← flatMap_lexeme, tokenize_of_reads parts reads]
  refine @tokenize_rewrite _ _ _ spans ?_ ?_ ?_ ?_ reads
  · intro span member
    obtain ⟨edit, inRemovals, rfl⟩ := List.mem_map.mp member
    obtain ⟨entry, inUsings, asked⟩ := List.mem_filterMap.mp inRemovals
    obtain ⟨extent, found, -, front, lead, middle, trail, back, removed⟩ :=
      exists_removed parts reads inUsings asked
    have statement : extent.statement ∈ source.removedStatements policy :=
      List.mem_filterMap.mpr ⟨entry, inUsings, by simp [asked, found]⟩
    refine ⟨front, _, [], back, removed.parts, removed.start, removed.stop, removed.rewrites ?_ ?_
      (removed.border parts (closes edit inRemovals))⟩
    · exact fun place inside => ⟨inserted place, (covers place).mpr ⟨_, member, inside⟩⟩
    · intro token inside
      have leaves : (source.removedStatements policy).any (·.Contains token.start) = true :=
        List.any_eq_true.mpr ⟨_, statement, decide_eq_true inside⟩
      rw [leaves, if_pos rfl]
  · have compatible := (source.removals_compatible policy).1
    exact List.pairwise_map.mpr ((List.pairwise_map.mp compatible).imp And.right)
  · intro place outside
    refine ⟨inserted place, Bool.eq_false_iff.mpr fun covered => ?_⟩
    obtain ⟨span, member, inside⟩ := (covers place).mp covered
    exact outside span member inside
  · intro token member outside
    have stays : (source.removedStatements policy).any (·.Contains token.start) = false := by
      refine List.any_eq_false.mpr fun statement known inside => ?_
      obtain ⟨entry, inUsings, bound⟩ := List.mem_filterMap.mp known
      obtain ⟨edit, asked, extentEq⟩ := Option.bind_eq_some_iff.mp bound
      obtain ⟨extent, found, -, front, lead, middle, trail, back, removed⟩ :=
        exists_removed parts reads inUsings asked
      obtain rfl : extent.statement = statement := by simpa [found] using extentEq
      refine outside edit.patch.span
        (List.mem_map_of_mem (List.mem_filterMap.mpr ⟨entry, inUsings, asked⟩)) ?_
      exact removed.contains (of_decide_eq_true inside)
    rw [stays, if_neg (by decide)]

/-- Removing using-statements always succeeds. It leaves out their tokens and no others, and makes no new
token, if every removal closes up. -/
theorem tokens_without_usings (source : Source) (policy : Policy) :
    ∃ rewritten, source.withoutUsings? policy = some rewritten ∧
      ((∀ edit ∈ source.removals policy,
        source.closesUp ((source.removals policy).map (·.patch)) edit.patch.span = true) →
      (tokenize rewritten).map Token.lexeme = source.keptLexemes policy) := by
  obtain ⟨compatible, fits⟩ := source.removals_compatible policy
  obtain ⟨store, accepted, spliced⟩ := Store.splice_recorded compatible
    (List.forall_mem_map.mpr fits)
  rw [List.map_map] at accepted
  have result : source.withoutUsings? policy = some (String.ofList
      (Patch.rewrite ((source.removals policy).map (·.patch)) source.text.toList)) := by
    rw [withoutUsings?, show (fun edit : Edit => (source, edit.patch)) =
      (fun patch => (source, patch)) ∘ (·.patch) from rfl, accepted]
    simp only [spliced]
    rfl
  exact ⟨_, result, tokens_of_closesUp⟩

set_option maxRecDepth 100000 in
/-- The statement stands alone on its line, in front of a directive. -/
theorem tokens_without_usings_line :
    let source : Source := ⟨⟨"/p/a.cpp"⟩, "a.cpp", "f();\n  using namespace std;\n#define A\n"⟩
    source.removals .standard ≠ [] ∧
    (∀ edit ∈ source.removals .standard,
      source.closesUp ((source.removals .standard).map (·.patch)) edit.patch.span = true) ∧
    ∃ rewritten, source.withoutUsings? .standard = some rewritten ∧
      (tokenize rewritten).map Token.lexeme = source.keptLexemes .standard := by
  intro source
  have evaluated : source.removals .standard ≠ [] ∧ ∀ edit ∈ source.removals .standard,
      source.closesUp ((source.removals .standard).map (·.patch)) edit.patch.span = true := by
    decide +kernel
  obtain ⟨removes, closes⟩ := evaluated
  obtain ⟨rewritten, result, same⟩ := tokens_without_usings source .standard
  exact ⟨removes, closes, rewritten, result, same closes⟩

set_option maxRecDepth 100000 in
/-- Behind code, a statement goes with its line feed, and the next line is no directive any more. -/
theorem removal_joins_lines :
    ¬∀ (source : Source) (policy : Policy), ∃ rewritten,
      source.withoutUsings? policy = some rewritten ∧
        (tokenize rewritten).map Token.lexeme = source.keptLexemes policy := by
  intro claim
  let source : Source :=
    ⟨⟨"/p/a.cpp"⟩, "a.cpp", "int x; using namespace std;\n#define A"⟩
  have differs : (source.withoutUsings? .standard).map (fun text => (tokenize text).map Token.lexeme) ≠
      some (source.keptLexemes .standard) := by
    decide +kernel
  obtain ⟨rewritten, result, same⟩ := claim source .standard
  exact differs (by rw [result, ← same]; rfl)

end Source

end Requalify
