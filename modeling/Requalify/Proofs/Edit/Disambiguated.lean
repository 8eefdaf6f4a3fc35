import Requalify.Proofs.ModuleName.Spelling
import Requalify.Proofs.Naming
import Requalify.Proofs.Patch.Rewriting
import Requalify.Proofs.Run
import Requalify.Proofs.Token.Insertions

/-!
What naming the anonymous namespaces makes of a text. Each patch writes the name of the file between two
chunks, and if the outline knows every anonymous namespace of the text, each of them gets a name.
-/

namespace Requalify

/-- The keywords with nothing but attributes in front of the brace that follows. -/
def Token.anonymousKeywords : List Token → List Span
  | [] => []
  | token :: rest =>
      (if token.opensAnonymous rest then [token.span] else []) ++ anonymousKeywords rest

theorem Token.mem_anonymousKeywords {tokens rest : List Token} {token : Token}
    (within : token :: rest <:+ tokens) (opens : token.opensAnonymous rest = true) :
    token.span ∈ anonymousKeywords tokens := by
  induction tokens with
  | nil => simp at within
  | cons first others ih =>
      rw [anonymousKeywords, List.mem_append]
      rcases List.suffix_cons_iff.mp within with here | later
      · obtain ⟨rfl, rfl⟩ := List.cons.inj here
        exact .inl (by simp [opens])
      · exact .inr (ih later)

/-- No anonymous namespace of the text is passed over. -/
def Outline.KnowsAnonymous (text : String) : Prop :=
  ∀ keyword ∈ Token.anonymousKeywords (tokenize text),
    keyword ∈ (Outline.ofText text).anonymousNamespaces

instance (text : String) : Decidable (Outline.KnowsAnonymous text) :=
  inferInstanceAs (Decidable (∀ keyword ∈ Token.anonymousKeywords (tokenize text), _))

/-- Two tokens of one text do not overlap. -/
theorem token_eq_of_overlaps {text : String} {left right : Token} (inText : left ∈ tokenize text)
    (inText' : right ∈ tokenize text) (overlap : left.span.Overlaps right.span) : left = right := by
  by_contra different
  let Apart (left right : Token) : Prop := ¬left.span.Overlaps right.span
  have symmetric : Std.Symm Apart := ⟨fun _ _ => mt Span.Overlaps.symm⟩
  have apart : (tokenize text).Pairwise Apart := by
    refine (tokenize_pairwise text).imp fun {left right} ordered meets => ?_
    exact Nat.not_lt_of_le ordered meets.2
  exact apart.forall inText inText' different overlap

theorem token_eq_of_start {text : String} {left right : Token} (inText : left ∈ tokenize text)
    (inText' : right ∈ tokenize text) (same : left.start = right.start) : left = right := by
  obtain ⟨_, placed⟩ := placed_of_mem inText
  obtain ⟨_, placed'⟩ := placed_of_mem inText'
  have covers := placed.start_lt_stop
  have covers' := placed'.start_lt_stop
  exact token_eq_of_overlaps inText inText' ⟨same.trans_lt covers', same.symm.trans_lt covers⟩

theorem token_eq_of_stop {text : String} {left right : Token} (inText : left ∈ tokenize text)
    (inText' : right ∈ tokenize text) (same : left.stop = right.stop) : left = right := by
  obtain ⟨_, placed⟩ := placed_of_mem inText
  obtain ⟨_, placed'⟩ := placed_of_mem inText'
  have covers := placed.start_lt_stop
  have covers' := placed'.start_lt_stop
  exact token_eq_of_overlaps inText inText' ⟨covers.trans_eq same, covers'.trans_eq same.symm⟩

/-- The patches for the anonymous namespaces of a source and the uses of what is in them. -/
def Source.namingPatches (policy : Policy) (catalog : Catalog) (source : Source) : List Patch :=
  ((Tool.disambiguateSymbols.edits policy source (Matches.ofSource catalog source)).filterMap id).map
    (·.patch)

namespace Chunk

/-- The last chunk as a token, if it is one. -/
def tokenBehind (front : List Chunk) : Option Token :=
  front.getLast?.bind (·.token? (Text.byteLength (flatten front.dropLast)))

theorem tokenBehind_concat (front : List Chunk) (chunk : Chunk) :
    tokenBehind (front ++ [chunk]) = chunk.token? (Text.byteLength (flatten front)) := by
  simp [tokenBehind]

theorem byteLength_concat (front : List Chunk) (chunk : Chunk) :
    Text.byteLength (flatten (front ++ [chunk])) =
      Text.byteLength (flatten front) + Text.byteLength chunk.text := by
  simp

theorem everywhere_behind {holds : Option Token → Nat → List Chunk → Prop} {whole : List Chunk}
    (between : ∀ front back, whole = front ++ back →
      holds (tokenBehind front) (Text.byteLength (flatten front)) back) {front back : List Chunk}
    (parts : whole = front ++ back) :
    Everywhere holds (tokenBehind front) (Text.byteLength (flatten front)) back := by
  induction back generalizing front with
  | nil => exact between front [] parts
  | cons chunk back ih =>
      have later := @ih (front ++ [chunk]) (by rw [parts, List.append_assoc]; rfl)
      rw [tokenBehind_concat, byteLength_concat] at later
      exact ⟨between front _ parts, later⟩

/-- What holds between all parts of a list of chunks holds everywhere in it. -/
theorem everywhere_of_parts {holds : Option Token → Nat → List Chunk → Prop} {whole : List Chunk}
    (between : ∀ front back, whole = front ++ back →
      holds (tokenBehind front) (Text.byteLength (flatten front)) back) : Everywhere holds none 0 whole :=
  everywhere_behind between (List.nil_append whole).symm

section Patches

variable {name : String} {written : Nat → Put} {whole : List Chunk} {patches : List Patch}
  (inserts : ∀ patch ∈ patches, patch.length = 0)
  (texts : ∀ offset, Patch.insertedAt patches offset = (written offset).text name)
  (places : ∀ offset, written offset ≠ .nothing → ∃ front back, whole = front ++ back ∧
    offset = Text.byteLength (flatten front))

include places in
/-- Nothing is written inside a chunk. -/
theorem nothing_inside {front back : List Chunk} {chunk : Chunk} (parts : whole = front ++ chunk :: back)
    {place : Nat} (behind : Text.byteLength (flatten front) < place)
    (within : place < Text.byteLength (flatten front) + Text.byteLength chunk.text) :
    written place = .nothing := by
  by_contra something
  obtain ⟨front', back', parts', rfl⟩ := places place something
  obtain ⟨middle, rfl, rest⟩ := append_of_byteLength_le (parts.symm.trans parts') (Nat.le_of_lt behind)
  cases middle with
  | nil =>
      rw [List.append_nil] at behind
      exact Nat.lt_irrefl _ behind
  | cons first middle =>
      obtain ⟨rfl, -⟩ := List.cons.inj rest
      simp only [flatten_append, flatten_cons, Text.byteLength_append] at within
      omega

include inserts texts places

theorem woven_behind {front back : List Chunk} (parts : whole = front ++ back) :
    Patch.rewriteFrom patches (Text.byteLength (flatten front)) (flatten back) ++
        Patch.insertedAt patches (Text.byteLength (flatten whole)) =
      (written (Text.byteLength (flatten front))).text name ++
        woven name written (Text.byteLength (flatten front)) back := by
  induction back generalizing front with
  | nil =>
      have same : whole = front := by rw [parts, List.append_nil]
      rw [same, texts, woven, List.append_nil]
      rfl
  | cons chunk back ih =>
      have later := @ih (front ++ [chunk]) (by rw [parts, List.append_assoc]; rfl)
      rw [byteLength_concat] at later
      have kept (place : Nat) : Patch.covers patches place = false := by
        refine List.any_eq_false.mpr fun patch member => ?_
        simp [Span.Contains, Patch.span, inserts patch member]
      have inside (place : Nat) (behind : Text.byteLength (flatten front) < place)
          (within : place < Text.byteLength (flatten front) + Text.byteLength chunk.text) :
          Patch.insertedAt patches place = [] := by
        rw [texts, nothing_inside places parts behind within]
        rfl
      have rest : Patch.rewriteFrom patches
          (Text.byteLength (flatten front) + chunk.first.utf8Size) chunk.rest = chunk.rest := by
        have positive := chunk.first.utf8Size_pos
        refine Patch.rewriteFrom_kept fun place from_ upTo => ⟨inside place (by omega) ?_, kept place⟩
        rw [Chunk.text, Text.byteLength_cons]
        omega
      have rewritten : Patch.rewriteFrom patches (Text.byteLength (flatten front))
            (flatten (chunk :: back)) =
          Patch.insertedAt patches (Text.byteLength (flatten front)) ++ (chunk.text ++
            Patch.rewriteFrom patches
              (Text.byteLength (flatten front) + Text.byteLength chunk.text) (flatten back)) := by
        rw [flatten_cons, Patch.rewriteFrom_append, Chunk.text, Patch.rewriteFrom, rest, kept]
        simp
      rw [rewritten, List.append_assoc, List.append_assoc, later, texts, woven]

/-- Patches between the chunks of a text weave what they insert into it. -/
theorem rewrite_eq_woven :
    Patch.rewrite patches (flatten whole) = (written 0).text name ++ woven name written 0 whole :=
  woven_behind inserts texts places (List.nil_append whole).symm

end Patches

end Chunk

namespace Source

variable (policy : Policy) (catalog : Catalog) (source : Source)

theorem mem_namingPatches {patch : Patch} :
    patch ∈ source.namingPatches policy catalog ↔
      ∃ landmark ∈ Tool.disambiguateSymbols.landmarks (Outline.ofText source.text),
        (Tool.disambiguateSymbols.editAt policy source
          (Environment.ofOutline (Outline.ofText source.text) catalog) landmark).map (·.patch) =
            some patch := by
  rw [namingPatches, Matches.ofSource, Tool.edits_eq, Environment.ofOutline_outline]
  simp only [List.mem_map, List.mem_filterMap, Option.map_eq_some_iff]
  grind

/-- A patch stands behind the keyword of an anonymous namespace, or in front of a name or separator. -/
theorem namingPatch_cases {patch : Patch} (asked : patch ∈ source.namingPatches policy catalog) :
    (∃ keyword ∈ (Outline.ofText source.text).anonymousNamespaces,
      patch = Patch.insert keyword.stop (" " ++ moduleName source.relativePath)
        Edit.nameNamespaceLabel) ∨
    ∃ token ∈ tokenize source.text, (token.isIdentifier = true ∨ token.isScope = true) ∧
      patch = Patch.insert token.start (if token.isScope then moduleName source.relativePath else
        moduleName source.relativePath ++ NamespacePath.separator) Edit.qualifyLabel := by
  obtain ⟨landmark, member, edit⟩ := (mem_namingPatches policy catalog source).mp asked
  rcases List.mem_append.mp member with inKeywords | inMentions
  · obtain ⟨keyword, known, rfl⟩ := List.mem_map.mp inKeywords
    exact .inl ⟨keyword, known, (Option.some.inj edit).symm⟩
  · obtain ⟨mention, inFile, rfl⟩ := List.mem_map.mp inMentions
    obtain ⟨token, known, place, begins, leading⟩ := Outline.exists_first inFile
    refine .inr ⟨token, known, begins, ?_⟩
    rw [leading, ← place]
    cases located : (Environment.ofOutline (Outline.ofText source.text) catalog).resolve mention with
    | bound => simp [Tool.editAt, located] at edit
    | unresolved => simp [Tool.editAt, located] at edit
    | found item =>
        have asked := edit
        simp only [Tool.editAt, located, Environment.ofOutline_outline] at asked
        split at asked
        next outside =>
          obtain ⟨anonymous, outside⟩ : item.anonymous = true ∧
              (Outline.ofText source.text).isInAnonymous mention.scope = false := by
            simpa using outside
          rw [Environment.editAt_anonymous policy inFile located anonymous outside] at edit
          exact (Option.some.inj edit).symm
        next => simp at asked

/-- A patch that is asked for is among the patches, under another label perhaps. -/
theorem insertedAt_of_asked {policy : Policy} {catalog : Catalog} {source : Source}
    {patches : List Patch} (same : ∀ content, content ∈ patches.map Patch.content ↔
      content ∈ (source.namingPatches policy catalog).map Patch.content)
    (compatible : patches.Pairwise Patch.Compatible) {asked : Patch}
    (member : asked ∈ source.namingPatches policy catalog) :
    Patch.insertedAt patches asked.offset = asked.text.toList := by
  obtain ⟨patch, known, offset, -, text⟩ :=
    Patch.exists_same (fun content => (same content).mpr) member
  rw [← offset, ← text]
  exact Patch.insertedAt_of_mem compatible known

/-- What is asked for is the name of a namespace or the qualifier of a use. -/
theorem mem_namingPatches_iff {patch : Patch} :
    patch ∈ source.namingPatches policy catalog ↔
      (∃ keyword ∈ (Matches.ofSource catalog source).anonymousNamespaces,
        patch = (Edit.ofAnonymousNamespace source keyword).patch) ∨
      ∃ use ∈ (Matches.ofSource catalog source).anonymousReferences,
        patch = (Edit.ofAnonymousReference source use).patch := by
  simp only [namingPatches, Tool.edits, List.mem_map, List.mem_filterMap, List.mem_append, id_eq,
    exists_eq_right]
  constructor
  · rintro ⟨edit, ⟨keyword, member, same⟩ | ⟨use, member, same⟩, rfl⟩
    · exact .inl ⟨keyword, member, by rw [Option.some.inj same]⟩
    · exact .inr ⟨use, member, by rw [Option.some.inj same]⟩
  · rintro (⟨keyword, member, rfl⟩ | ⟨use, member, rfl⟩)
    · exact ⟨_, .inl ⟨keyword, member, rfl⟩, rfl⟩
    · exact ⟨_, .inr ⟨use, member, rfl⟩, rfl⟩

theorem anonymousNamespaces_found : (Matches.ofSource catalog source).anonymousNamespaces =
    (Outline.ofText source.text).anonymousNamespaces := by
  rw [Matches.ofSource, Matches.ofEnvironment, Environment.ofOutline_outline]

theorem exists_token_of_keyword {text : String} {keyword : Span}
    (member : keyword ∈ (Outline.ofText text).anonymousNamespaces) :
    ∃ token ∈ tokenize text, keyword = token.span := by
  rw [Outline.ofText_anonymousNamespaces] at member
  obtain ⟨stop, inStops, rfl⟩ := List.mem_map.mp member
  have tokensEq := (Token.parts_of_stop (List.mem_filter.mp inStops).1).1
  rw [List.reverse_nil, List.nil_append] at tokensEq
  exact ⟨stop.token, by rw [tokensEq]; simp, rfl⟩

/-- A use begins with a name or a separator. -/
theorem exists_token_of_use {use : AnonymousReference}
    (found : use ∈ (Matches.ofSource catalog source).anonymousReferences) :
    ∃ token ∈ tokenize source.text, token.start = use.node.start ∧
      (token.isIdentifier = true ∨ token.isScope = true) ∧
      (Edit.ofAnonymousReference source use).patch = Patch.insert token.start
        (if token.isScope then moduleName source.relativePath else
          moduleName source.relativePath ++ NamespacePath.separator) Edit.qualifyLabel := by
  have asked := (mem_namingPatches_iff default catalog source).mpr (.inr ⟨use, found, rfl⟩)
  rcases namingPatch_cases default catalog source asked with ⟨keyword, -, same⟩ | ⟨token, inText, begins, same⟩
  · exact absurd (congrArg Patch.label same) (by simp [Edit.ofAnonymousReference, Patch.insert]; decide)
  · exact ⟨token, inText, (congrArg Patch.offset same).symm, begins, same⟩

open Chunk in
/-- What naming writes at an offset. -/
def written (offset : Nat) : Put :=
  let found := Matches.ofSource catalog source
  if ∃ keyword ∈ found.anonymousNamespaces, keyword.stop = offset then .label
  else if ∃ use ∈ found.anonymousReferences, use.node.start = offset then
    if ∃ token ∈ tokenize source.text, token.start = offset ∧ token.isScope = true then .lead
    else .qualify
  else .nothing

theorem written_label {offset : Nat} : source.written catalog offset = .label ↔
    ∃ keyword ∈ (Matches.ofSource catalog source).anonymousNamespaces, keyword.stop = offset := by
  rw [written]
  split
  next known => exact iff_of_true rfl known
  next unknown =>
    refine iff_of_false ?_ unknown
    split
    next => split <;> simp
    next => simp

/-- Where no name of a namespace is written, the uses tell what is. -/
theorem written_cases {offset : Nat} (other : source.written catalog offset ≠ .label) :
    (source.written catalog offset = .nothing ∧
      ∀ patch ∈ source.namingPatches policy catalog, patch.offset ≠ offset) ∨
    ∃ use ∈ (Matches.ofSource catalog source).anonymousReferences, use.node.start = offset ∧
      ∃ token ∈ tokenize source.text, token.start = offset ∧
        ((source.written catalog offset = .qualify ∧ token.isIdentifier = true) ∨
          (source.written catalog offset = .lead ∧ token.isScope = true)) := by
  have unknown := mt (source.written_label catalog).mpr other
  rw [written, if_neg unknown]
  split
  next used =>
    obtain ⟨use, found, rfl⟩ := used
    obtain ⟨token, inText, start, begins, -⟩ := exists_token_of_use catalog source found
    refine .inr ⟨use, found, rfl, token, inText, start, ?_⟩
    split
    next scope =>
      obtain ⟨token', inText', start', isScope⟩ := scope
      obtain rfl := token_eq_of_start inText inText' (start.trans start'.symm)
      exact .inr ⟨rfl, isScope⟩
    next plain =>
      exact .inl ⟨rfl, begins.resolve_right fun isScope => plain ⟨token, inText, start, isScope⟩⟩
  next unused =>
    refine .inl ⟨rfl, fun patch asked here => ?_⟩
    rcases (mem_namingPatches_iff policy catalog source).mp asked with
      ⟨keyword, found, rfl⟩ | ⟨use, found, rfl⟩
    · exact unknown ⟨keyword, found, here⟩
    · exact unused ⟨use, found, here⟩

section Applied

open Chunk

variable {policy catalog source} {patches : List Patch} {whole : List Chunk}
  (same : ∀ content, content ∈ patches.map Patch.content ↔
    content ∈ (source.namingPatches policy catalog).map Patch.content)
  (compatible : patches.Pairwise Patch.Compatible)
  (known : Outline.KnowsAnonymous source.text)
  (parts : flatten whole = source.text.toList) (reads : Reads true [] whole)

section Parts

include parts reads

/-- The keyword of an anonymous namespace is a chunk, and the tokens behind it are those of the chunks
behind it. -/
theorem chunk_of_keyword {keyword : Span}
    (member : keyword ∈ (Outline.ofText source.text).anonymousNamespaces) :
    ∃ before chunk back token, whole = before ++ [chunk] ++ back ∧
      chunk.token? (Text.byteLength (flatten before)) = some token ∧
      token.opensAnonymous (tokens (Text.byteLength (flatten (before ++ [chunk]))) back) = true ∧
      keyword.stop = Text.byteLength (flatten (before ++ [chunk])) := by
  rw [Outline.ofText_anonymousNamespaces] at member
  obtain ⟨stop, inStops, rfl⟩ := List.mem_map.mp member
  obtain ⟨isStop, opens⟩ := List.mem_filter.mp inStops
  have tokensEq := (Token.parts_of_stop isStop).1
  rw [List.reverse_nil, List.nil_append, tokenize_of_reads parts reads] at tokensEq
  obtain ⟨before, chunk, back, rfl, kind, lexeme, start, rest⟩ := exists_split tokensEq
  have stopEq : stop.token.stop = Text.byteLength (flatten (before ++ [chunk])) := by
    rw [Token.stop, start, ← lexeme]
    simp
  refine ⟨before, chunk, back, stop.token, by simp, ?_, ?_, stopEq⟩
  · rw [token?, kind, lexeme, String.ofList_toList, ← Nat.zero_add (Text.byteLength _), ← start]
    rfl
  · rw [← stopEq, rest]
    exact opens

/-- Something is written only where chunks meet, and it fits there. -/
theorem exists_parts_of_written {offset : Nat} (something : source.written catalog offset ≠ .nothing) :
    ∃ front back, whole = front ++ back ∧ offset = Text.byteLength (flatten front) ∧
      (source.written catalog offset).Fits (tokenBehind front) offset back := by
  by_cases isLabel : source.written catalog offset = .label
  · obtain ⟨keyword, found, rfl⟩ := (source.written_label catalog).mp isLabel
    rw [anonymousNamespaces_found] at found
    obtain ⟨before, chunk, back, token, place, isToken, opens, stop⟩ :=
      chunk_of_keyword parts reads found
    refine ⟨before ++ [chunk], back, place, stop, ?_⟩
    rw [isLabel, stop, tokenBehind_concat]
    exact ⟨token, isToken, opens⟩
  · obtain ⟨nothing, -⟩ | ⟨-, -, -, token, inText, rfl, kinds⟩ :=
      written_cases default catalog source isLabel
    · exact absurd nothing something
    · rw [tokenize_of_reads parts reads] at inText
      obtain ⟨before, chunk, rest, place, kind, -, start⟩ := exists_chunk inText
      refine ⟨before, _, place, start.trans (Nat.zero_add _), ?_⟩
      rcases kinds with ⟨isQualify, isName⟩ | ⟨isLead, isScope⟩
      · rw [isQualify]
        exact ⟨chunk, rfl, kind.trans (congrArg some (Token.kind_of_isIdentifier isName))⟩
      · rw [isLead]
        exact ⟨chunk, rfl, kind.trans (congrArg some (Token.kind_of_isScope isScope))⟩

theorem fitting_written : Fitting (source.written catalog) none 0 whole := by
  refine everywhere_of_parts fun front back place => ?_
  by_cases nothing : source.written catalog (Text.byteLength (flatten front)) = .nothing
  · rw [nothing]
    trivial
  · obtain ⟨front', back', place', offset, fits⟩ := exists_parts_of_written parts reads nothing
    obtain ⟨rfl, rfl⟩ := append_inj_of_byteLength (place.symm.trans place') offset
    exact fits

include known in
/-- If the outline knows all anonymous namespaces, each of them gets a name. -/
theorem complete_written : Complete (source.written catalog) none 0 whole := by
  refine everywhere_of_parts fun front back place keyword isBehind opens => ?_
  rcases List.eq_nil_or_concat front with rfl | ⟨before, chunk, rfl⟩
  · simp [tokenBehind] at isBehind
  · rw [List.concat_eq_append] at place isBehind opens ⊢
    rw [tokenBehind_concat] at isBehind
    have within : keyword :: tokens (Text.byteLength (flatten (before ++ [chunk]))) back <:+
        tokenize source.text := by
      rw [tokenize_of_reads parts reads, place, List.append_assoc, tokens_append]
      refine List.suffix_append_of_suffix ?_
      rw [List.cons_append, tokens_cons_token?, Nat.zero_add, isBehind]
      simp
    have stop : keyword.span.stop = Text.byteLength (flatten (before ++ [chunk])) := by
      obtain ⟨kind, isKind, rfl⟩ := Option.map_eq_some_iff.mp isBehind
      simp [Token.span, Token.stop]
    refine (source.written_label catalog).mpr ⟨keyword.span, ?_, stop⟩
    rw [anonymousNamespaces_found]
    exact known _ (Token.mem_anonymousKeywords within opens)

end Parts

section Written

include same compatible

/-- The patches insert what is written. -/
theorem insertedAt_written (offset : Nat) : Patch.insertedAt patches offset =
    (source.written catalog offset).text (moduleName source.relativePath) := by
  by_cases isLabel : source.written catalog offset = .label
  · obtain ⟨keyword, found, rfl⟩ := (source.written_label catalog).mp isLabel
    have asked := (mem_namingPatches_iff policy catalog source).mpr (.inl ⟨keyword, found, rfl⟩)
    have inserted := insertedAt_of_asked same compatible asked
    rw [isLabel]
    exact inserted.trans String.toList_append
  · obtain ⟨nothing, free⟩ | ⟨use, found, start, token, inText, begins, kinds⟩ :=
      written_cases policy catalog source isLabel
    · rw [nothing]
      refine Patch.insertedAt_of_free fun patch member here => ?_
      obtain ⟨asked, isAsked, offset, -⟩ :=
        Patch.exists_same (fun content => (same content).mp) member
      exact free asked isAsked (offset.trans here)
    · have asked := (mem_namingPatches_iff policy catalog source).mpr (.inr ⟨use, found, rfl⟩)
      have inserted := insertedAt_of_asked same compatible asked
      obtain ⟨token', inText', begins', -, patch⟩ := exists_token_of_use catalog source found
      obtain rfl := token_eq_of_start inText inText' (by rw [begins, begins', start])
      rw [patch] at inserted
      rw [← begins]
      refine Eq.trans inserted ?_
      rw [begins]
      rcases kinds with ⟨isQualify, isName⟩ | ⟨isLead, isScope⟩
      · have notScope := Token.not_isScope_of_isIdentifier isName
        rw [isQualify, Patch.insert, notScope, if_neg (by decide), String.toList_append]
        rfl
      · rw [isLead, Patch.insert, if_pos isScope]
        rfl

include parts reads

/-- The text with the patches is the text with names woven into it. -/
theorem rewrite_written : Patch.rewrite patches (flatten whole) =
    (source.written catalog 0).text (moduleName source.relativePath) ++
      woven (moduleName source.relativePath) (source.written catalog) 0 whole := by
  refine rewrite_eq_woven (fun patch member => ?_) (insertedAt_written same compatible)
    fun offset something => ?_
  · obtain ⟨asked, isAsked, -, span, -⟩ :=
      Patch.exists_same (fun content => (same content).mp) member
    have length : asked.length = 0 := by
      rcases namingPatch_cases policy catalog source isAsked with ⟨_, -, rfl⟩ | ⟨_, -, -, rfl⟩
      · rfl
      · rfl
    have start : asked.offset = patch.offset := congrArg Span.start span
    have stop : asked.offset + asked.length = patch.offset + patch.length := congrArg Span.stop span
    omega
  · obtain ⟨front, back, place, start, -⟩ := exists_parts_of_written parts reads something
    exact ⟨front, back, place, start⟩

include known in
/-- With names at the patches, the text has no anonymous namespace. -/
theorem anonymousNamespaces_named (isName : IsName (moduleName source.relativePath)) :
    (Outline.ofText (String.ofList (Patch.rewrite patches source.text.toList))).anonymousNamespaces =
      [] := by
  have fitting : Fitting (source.written catalog) none 0 whole := fitting_written parts reads
  have inserted := inserted_woven isName fitting reads (complete_written known parts reads)
  rw [← rewrite_written same compatible parts reads] at inserted
  rw [← parts, Outline.ofText_anonymousNamespaces, List.map_eq_nil_iff, List.filter_eq_nil_iff]
  intro stop isStop
  simp [inserted.named (Token.parts_of_stop isStop).2]

end Written

end Applied

end Source

end Requalify
