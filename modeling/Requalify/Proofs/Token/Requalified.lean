import Requalify.Proofs.Token.Names
import Requalify.Proofs.Token.Rewritten

/-!
Writing a qualifier, as it shows in the chunks. Names with separators are put in place of other ones, or
in front of a name; a leading separator and blanks in front of the first name stay. Nothing in front or
behind becomes part of what is written.
-/

namespace Requalify

namespace Chunk

open Piece

theorem nonblank_of_nameStart {c : Char} (start : isNameStart c = true) :
    Text.isAsciiBlank c = false :=
  nonblank_of_joinsWord (joinsWord_of_namePart (isNamePart_of_nameStart start))

theorem joins_nameStart {c : Char} (start : isNameStart c = true) (front : Option Char) :
    joins front (some c) = false := by
  have operator : isOperator c = false := by
    refine Bool.eq_false_iff.mpr fun operator => ?_
    have none : (isOperator c && isNameStart c) = false := by
      have all : (['<', '=', '>', '.', '-', '*', '&', '|', '+', '!', '/', '%', '^', '#', ':'].all
          fun d => !isNameStart d) = true := by
        decide
      have other := List.all_eq_true.mp all c (List.contains_iff_mem.mp operator)
      simp [start] at other
    simp [operator, start] at none
  have digit : c.isDigit = false := by
    refine Bool.eq_false_iff.mpr fun digit => ?_
    simp [isNameStart_of_digit digit] at start
  simp [joins, operator, digit]

theorem reachesHash_nameStart {text : List Char} (start : text.head?.any isNameStart = true) :
    reachesHash false text = false := by
  cases text with
  | nil => rfl
  | cons c text =>
      have isStart : isNameStart c = true := start
      have hash : c ≠ '#' := by
        rintro rfl
        exact absurd isStart (by decide)
      have slash : c ≠ '/' := by
        rintro rfl
        exact absurd isStart (by decide)
      rw [reachesHash.eq_6 _ _ hash fun _ isSlash => absurd isSlash slash]
      simp [nonblank_of_nameStart isStart]

theorem ofNames_getLast? {names : List String} (nonempty : names ≠ []) :
    (ofNames names).getLast? = some separator := by
  rw [ofNames, ← List.dropLast_concat_getLast nonempty, List.flatMap_append, List.getLast?_append]
  simp

theorem plain_ofNames {names : List String} (areNames : ∀ name ∈ names, IsName name) :
    '(' ∉ flatten (ofNames names) := by
  rw [flatten_ofNames areNames]
  intro member
  obtain ⟨name, known, inName⟩ := List.mem_flatMap.mp member
  rcases List.mem_append.mp inName with part | colons
  · exact absurd ((areNames name known).isNamePart part) (by decide)
  · exact absurd colons (by decide)

theorem head_ofNames {names : List String} (areNames : ∀ name ∈ names, IsName name)
    (nonempty : names ≠ []) (rest : List Char) :
    (flatten (ofNames names) ++ rest).head?.any isNameStart = true := by
  cases names with
  | nil => exact absurd rfl nonempty
  | cons name names =>
      obtain ⟨c, others, parts, start, -⟩ := (areNames name (by simp)).parts
      simp [flatten_ofNames areNames, parts, start]

theorem lexemes_ofNames {names : List String} (areNames : ∀ name ∈ names, IsName name) :
    (ofNames names).filterMap lexeme? =
      names.flatMap fun name => [(.identifier, name), (.scope, "::")] := by
  induction names with
  | nil => rfl
  | cons name names ih =>
      obtain ⟨isName, areNames⟩ := List.forall_mem_cons.mp areNames
      have rest : (ofNames names).filterMap lexeme? = _ := ih areNames
      have first : [ofName name, separator].filterMap lexeme? =
          [(.identifier, name), (.scope, "::")] := by
        have lexeme : (ofName name).lexeme? = some (.identifier, name) := by
          rw [lexeme?, text_ofName isName, String.ofList_toList]
          rfl
        rw [List.filterMap_cons, lexeme]
        rfl
      rw [ofNames, List.flatMap_cons, List.filterMap_append, ← ofNames, rest, List.flatMap_cons, first]

theorem edited_keep {previous : Option Char} {kept chunks result : List Chunk}
    (edited : Edited ((flatten kept).getLast?.or previous) chunks result) :
    Edited previous (kept ++ chunks) (kept ++ result) := by
  induction kept generalizing previous with
  | nil => exact edited
  | cons chunk kept ih =>
      refine .keep (ih ?_)
      rw [flatten_cons, List.getLast?_append, text_getLast?] at edited
      cases last : (flatten kept).getLast? with
      | none => simpa [last] using edited
      | some c => simpa [last] using edited

/-- The patch writes `names` in place of `region`; the names go with a leading separator and blanks in
front of them. -/
structure Requalified (whole : List Chunk) (chain : Span) (patch : Patch) (names : List String)
    (front lead blanks region rest back : List Chunk) : Prop where
  parts : whole = front ++ (lead ++ (blanks ++ region) ++ rest ++ back)
  start : Text.byteLength (flatten front) = chain.start
  stop : Text.byteLength (flatten (front ++ (lead ++ (blanks ++ region) ++ rest))) = chain.stop
  offset : Text.byteLength (flatten (front ++ (lead ++ blanks))) = patch.offset
  length : Text.byteLength (flatten region) = patch.length
  text : patch.text.toList = flatten (ofNames names)
  areNames : ∀ name ∈ names, IsName name
  named : names ≠ []
  remains : rest ≠ []
  leads : lead = [] ∧ (flatten (blanks ++ region ++ rest)).head?.any isNameStart = true ∨
    lead = [separator]
  blank : ∀ chunk ∈ blanks, chunk.kind = none ∧ chunk.rest = [] ∧
    Text.isAsciiBlank chunk.first = true
  ends : region = [] ∧ blanks = [] ∨ region.getLast? = some separator

namespace Requalified

variable {whole : List Chunk} {chain : Span} {patch : Patch} {names : List String}
  {front lead blanks region rest back : List Chunk}
  (requalified : Requalified whole chain patch names front lead blanks region rest back)

include requalified

theorem size : Text.byteLength (flatten (lead ++ (blanks ++ region) ++ rest)) + chain.start =
    chain.stop := by
  rw [← requalified.stop, ← requalified.start, flatten_append front, Text.byteLength_append,
    Nat.add_comm]

/-- The patch lies inside the chain. -/
theorem inside : chain.start ≤ patch.offset ∧ patch.span.stop < chain.stop := by
  have positive := byteLength_flatten_pos requalified.remains
  have start := requalified.start
  have stop := requalified.stop
  have offset := requalified.offset
  have length := requalified.length
  simp only [flatten_append, Text.byteLength_append] at start stop offset
  simp only [Patch.span]
  omega

theorem rest_getLast? : ∃ c, (flatten rest).getLast? = some c := by
  refine Option.isSome_iff_exists.mp (List.getLast?_isSome.mpr fun nothing => ?_)
  have positive := byteLength_flatten_pos requalified.remains
  rw [nothing] at positive
  exact absurd positive (by decide)

theorem rewriteFrom_eq {patches : List Patch}
    (alone : ∀ place, chain.Contains place →
      Patch.insertedAt patches place = Patch.insertedAt [patch] place ∧
        Patch.covers patches place = Patch.covers [patch] place) :
    Patch.rewriteFrom patches (Text.byteLength (flatten front))
        (flatten (lead ++ (blanks ++ region) ++ rest)) =
      flatten (lead ++ (blanks ++ ofNames names) ++ rest) := by
  have old : flatten (lead ++ (blanks ++ region) ++ rest) =
      flatten (lead ++ blanks) ++ (flatten region ++ flatten rest) := by
    simp
  have new : flatten (lead ++ (blanks ++ ofNames names) ++ rest) =
      flatten (lead ++ blanks) ++ (flatten (ofNames names) ++ flatten rest) := by
    simp
  rw [new, ← requalified.text, old]
  refine Patch.rewriteFrom_alone (fun place from_ upTo => alone place ?_) ?_ requalified.length ?_
  · rw [← old] at upTo
    have size := requalified.size
    rw [requalified.start] at from_ upTo
    exact ⟨from_, by omega⟩
  · rw [← requalified.offset, flatten_append front, Text.byteLength_append]
  · obtain ⟨c, last⟩ := requalified.rest_getLast?
    intro nothing
    simp [(List.append_eq_nil_iff.mp nothing).2] at last

theorem blanks_eq_nil (nothing : lead = []) : blanks = [] := by
  rcases requalified.leads with ⟨-, start⟩ | isLead
  · cases blanksEq : blanks with
    | nil => rfl
    | cons chunk others =>
        obtain ⟨-, -, blank⟩ := requalified.blank chunk (by simp [blanksEq])
        have first : isNameStart chunk.first = true := by
          simpa [blanksEq, Chunk.text] using start
        simp [nonblank_of_nameStart first] at blank
  · simp [nothing] at isLead

theorem plain : '(' ∉ flatten (lead ++ (blanks ++ ofNames names)) := by
  have inLead : '(' ∉ flatten lead := by
    rcases requalified.leads with ⟨rfl, -⟩ | rfl
    · simp
    · decide
  have inBlanks : '(' ∉ flatten blanks := by
    intro member
    obtain ⟨chunk, known, inChunk⟩ := List.mem_flatMap.mp member
    obtain ⟨-, single, blank⟩ := requalified.blank chunk known
    rw [Chunk.text, single, List.mem_singleton] at inChunk
    rw [← inChunk] at blank
    exact absurd blank (by decide)
  simp [inLead, inBlanks, plain_ofNames requalified.areNames]

theorem reads_new (fresh : Bool) (after : List Char) :
    Reads fresh after (lead ++ (blanks ++ ofNames names)) := by
  have blanksRead (fresh : Bool) (after : List Char) : Reads fresh after blanks := by
    have blank := requalified.blank
    clear requalified
    induction blanks generalizing fresh with
    | nil => trivial
    | cons chunk blanks ih =>
        obtain ⟨⟨kind, single, isBlank⟩, others⟩ := List.forall_mem_cons.mp blank
        exact ⟨standsBefore_of_blank kind single isBlank fresh _, ih _ others⟩
  refine reads_append.mpr ⟨?_, reads_append.mpr ⟨blanksRead _ _, reads_ofNames requalified.areNames _ _⟩⟩
  rcases requalified.leads with ⟨rfl, -⟩ | rfl
  · trivial
  · exact ⟨separator_standsBefore _ _, trivial⟩

theorem border (previous : Option Char) (behind behind' : List Char) :
    Border previous (lead ++ (blanks ++ region)) (lead ++ (blanks ++ ofNames names))
      (flatten rest ++ behind) (flatten rest ++ behind') := by
  have newLast : (lead ++ (blanks ++ ofNames names)).getLast? = some separator := by
    simp [List.getLast?_append, ofNames_getLast? requalified.named]
  refine ⟨?_, fun fresh => requalified.reads_new fresh _, requalified.plain, ?_⟩
  · rcases requalified.leads with ⟨nothing, start⟩ | rfl
    · have noBlanks := requalified.blanks_eq_nil nothing
      subst nothing noBlanks
      refine .word ?_ ?_
      · cases old : flatten (region ++ rest) with
        | nil => simp [old] at start
        | cons c others =>
            rw [List.nil_append, List.nil_append, ← List.append_assoc, ← flatten_append, old]
            simpa [old] using start
      · have first := head_ofNames requalified.areNames requalified.named (flatten rest ++ behind')
        rw [List.nil_append, List.nil_append]
        cases new : (flatten (ofNames names) ++ (flatten rest ++ behind')).head? with
        | none => simp [new] at first
        | some c => exact joins_nameStart (by simpa [new] using first) _
    · exact .separator _ _ rfl rfl
  · rcases requalified.ends with ⟨rfl, rfl⟩ | isLast
    · rcases requalified.leads with ⟨rfl, start⟩ | rfl
      · refine .noHash (reachesHash_nameStart ?_)
        cases old : flatten rest with
        | nil => simp [old] at start
        | cons c others => simpa [old] using start
      · exact .tokens rfl rfl newLast rfl
    · have oldLast : (lead ++ (blanks ++ region)).getLast? = some separator := by
        simp [List.getLast?_append, isLast]
      exact .tokens oldLast rfl newLast rfl

theorem edited {result : List Chunk}
    (edited : Edited (flatten (front ++ (lead ++ (blanks ++ region) ++ rest))).getLast? back result) :
    Edited (flatten front).getLast? (lead ++ (blanks ++ region) ++ rest ++ back)
      (lead ++ (blanks ++ ofNames names) ++ rest ++ result) := by
  obtain ⟨c, last⟩ := requalified.rest_getLast?
  have border := requalified.border (flatten front).getLast? (flatten back) (flatten result)
  rw [← flatten_append, ← flatten_append] at border
  rw [List.append_assoc _ rest, List.append_assoc _ rest]
  refine .replace border (edited_keep ?_)
  rw [flatten_append, flatten_append _ rest, List.getLast?_append, List.getLast?_append, last] at edited
  rw [last]
  exact edited

/-- The chain is rewritten to the chunks with the names in place of the region. -/
theorem rewrites {patches : List Patch} {replace : Token → List (TokenKind × String)}
    (alone : ∀ place, chain.Contains place →
      Patch.insertedAt patches place = Patch.insertedAt [patch] place ∧
        Patch.covers patches place = Patch.covers [patch] place)
    (lexemes : (tokens (Text.byteLength (flatten front))
        (lead ++ (blanks ++ region) ++ rest)).flatMap replace =
      (lead ++ (blanks ++ ofNames names) ++ rest).filterMap lexeme?) :
    Rewrites patches replace front (lead ++ (blanks ++ region) ++ rest)
      (lead ++ (blanks ++ ofNames names) ++ rest) back := by
  refine ⟨?_, requalified.rewriteFrom_eq alone, lexemes, fun result _ => requalified.edited⟩
  simp [requalified.remains]

/-- What the patch makes of the text if it is the only one. -/
theorem rewrite_alone : Patch.rewrite [patch] (flatten whole) =
    flatten (front ++ (lead ++ (blanks ++ ofNames names) ++ rest ++ back)) := by
  have old : flatten whole =
      flatten (front ++ (lead ++ blanks)) ++ (flatten region ++ flatten (rest ++ back)) := by
    rw [requalified.parts]
    simp
  rw [old, Patch.rewrite_cons (by simp) requalified.offset requalified.length, Patch.rewrite_nil,
    requalified.text]
  simp

theorem lexemes_alone (reads : Reads true [] whole) :
    (tokenize (String.ofList (Patch.rewrite [patch] (flatten whole)))).map Token.lexeme =
      (front ++ (lead ++ (blanks ++ ofNames names) ++ rest ++ back)).filterMap lexeme? := by
  have same (previous : Option Char) : Edited previous back back := by
    have kept : Edited previous (back ++ []) (back ++ []) := edited_keep (.nil _)
    rwa [List.append_nil] at kept
  have edited : Edited none whole (front ++ (lead ++ (blanks ++ ofNames names) ++ rest ++ back)) := by
    rw [requalified.parts]
    exact edited_keep (by simpa using requalified.edited (same _))
  have readsNew : Reads true [] (front ++ (lead ++ (blanks ++ ofNames names) ++ rest ++ back)) :=
    edited.reads reads (fun _ _ _ _ => rfl) fun _ => rfl
  rw [requalified.rewrite_alone, tokenize_of_reads String.toList_ofList.symm readsNew, tokens_map_lexeme]

end Requalified

end Chunk

end Requalify
