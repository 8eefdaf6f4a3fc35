import Requalify.Proofs.Edit.Disambiguated
import Requalify.Proofs.Edit.Matches

/-!
The tokens of a source whose anonymous namespaces have got their names. They are the tokens of the source
with the names between them, unless a use with a leading `::` stands directly behind a word, a number or a
literal: nothing is written between that and the name, and the two become one token.
-/

namespace Requalify

namespace Chunk

/-- What is written, as tokens without their places. -/
def Put.lexemes (name : String) : Put → List (TokenKind × String)
  | nothing => []
  | label => [(.identifier, name)]
  | qualify => [(.identifier, name), (.scope, "::")]
  | lead => [(.identifier, name)]

/-- What is written in front of a token. -/
def Put.before (name : String) (put : Put) : List (TokenKind × String) :=
  if put = .label then [] else put.lexemes name

/-- What is written behind a token. -/
def Put.after (name : String) (put : Put) : List (TokenKind × String) :=
  if put = .label then put.lexemes name else []

/-- The tokens of the chunks at `offset` with what is written behind each of them. -/
def named (name : String) (written : Nat → Put) : Nat → List Chunk → List (TokenKind × String)
  | _, [] => []
  | offset, chunk :: chunks =>
      let stop := offset + Text.byteLength chunk.text
      chunk.lexeme?.toList ++ ((written stop).lexemes name ++ named name written stop chunks)

/-- No name is written alone behind a word, a number or a literal. -/
def KeepsApart (written : Nat → Put) : Nat → List Chunk → Prop
  | _, [] => True
  | offset, chunk :: chunks =>
      let stop := offset + Text.byteLength chunk.text
      (written stop = .lead → chunk.isWord = false) ∧ KeepsApart written stop chunks

section Named

variable {name : String} {written : Nat → Put} {previous : Option Token} {offset : Nat}
  {chunks result : List Chunk}

theorem Put.lexemes_eq (put : Put) : put.after name ++ put.before name = put.lexemes name := by
  cases put <;> rfl

theorem Put.lexemes_chunks (isName : IsName name) (put : Put) :
    (put.chunks name).filterMap lexeme? = put.lexemes name := by
  have word : (ofName name).lexeme? = some (.identifier, name) := by
    rw [lexeme?, text_ofName isName, String.ofList_toList]
    rfl
  have blank : (⟨none, ' ', []⟩ : Chunk).lexeme? = none := rfl
  cases put with
  | nothing => rfl
  | label => simp [chunks, lexemes, blank, word]
  | qualify => simp [chunks, lexemes, word, show separator.lexeme? = some (.scope, "::") from rfl]
  | lead => simp [chunks, lexemes, word]

/-- Where names keep apart they are tokens of their own, and elsewhere a token is lost. -/
theorem Becomes.lexemes_iff (isName : IsName name) (becomes : Becomes name written offset chunks result) :
    (result.filterMap lexeme?).length ≤ (named name written offset chunks).length ∧
      (result.filterMap lexeme? = named name written offset chunks ↔
        KeepsApart written offset chunks) := by
  induction becomes with
  | nil => exact ⟨Nat.le_refl _, iff_of_true rfl trivial⟩
  | @cons offset chunk chunks front result behind others ih =>
      obtain ⟨shorter, same⟩ := ih
      rw [List.filterMap_append, named, KeepsApart]
      generalize written _ = put at behind ⊢
      cases behind with
      | apart put plain =>
          have here : (chunk :: put.chunks name).filterMap lexeme? =
              chunk.lexeme?.toList ++ put.lexemes name := by
            rw [List.filterMap_cons, put.lexemes_chunks isName]
            cases chunk.lexeme? <;> rfl
          rw [here, List.append_assoc]
          refine ⟨?_, ?_⟩
          · simp only [List.length_append]
            omega
          · rw [List.append_right_inj, List.append_right_inj, same]
            exact (and_iff_right plain).symm
      | @joined kind word noMark =>
          obtain ⟨kind', isKind, -⟩ := kind_of_isWord word
          have longer : ([chunk.joined kind name].filterMap lexeme? ++ result.filterMap lexeme?).length <
              (chunk.lexeme?.toList ++
                (Put.lead.lexemes name ++
                  named name written (offset + Text.byteLength chunk.text) chunks)).length := by
            simp only [lexeme?, Chunk.joined, isKind, Put.lexemes, List.filterMap_cons, Option.map_some,
              List.filterMap_nil, Option.toList_some, List.length_append, List.length_cons,
              List.length_nil]
            omega
          refine ⟨Nat.le_of_lt longer, iff_of_false ?_ ?_⟩
          · exact fun equal => Nat.ne_of_lt longer (congrArg List.length equal)
          · rintro ⟨plain, -⟩
            simp [plain rfl] at word

theorem Put.before_of_fits {put : Put} (fits : put.Fits previous offset chunks)
    (gap : ∀ chunk ∈ chunks.head?, chunk.kind = none) : put.before name = [] := by
  cases put with
  | nothing => rfl
  | label => rfl
  | qualify =>
      obtain ⟨chunk, isHead, kind⟩ := fits
      simp [gap chunk isHead] at kind
  | lead =>
      obtain ⟨chunk, isHead, kind⟩ := fits
      simp [gap chunk isHead] at kind

theorem Put.after_of_fits {put : Put} (fits : put.Fits none offset chunks) : put.after name = [] := by
  cases put with
  | label =>
      obtain ⟨_, nothing, -⟩ := fits
      simp at nothing
  | nothing => rfl
  | qualify => rfl
  | lead => rfl

/-- The tokens with what is written in front of each and behind each. -/
theorem named_eq_flatMap (fitting : Fitting written previous offset chunks) :
    (written offset).before name ++ named name written offset chunks =
      (tokens offset chunks).flatMap fun token =>
        (written token.start).before name ++ token.lexeme :: (written token.stop).after name := by
  induction chunks generalizing previous offset with
  | nil => exact (List.append_nil _).trans (Put.before_of_fits fitting.here (by simp))
  | cons chunk chunks ih =>
      have fits := fitting.here
      have later := fitting.2
      rw [named, tokens_cons_token?, List.flatMap_append, ← ih later, ← Put.lexemes_eq, List.append_assoc]
      cases kind : chunk.kind with
      | none =>
          have fitsBehind := later.here
          simp only [token?, kind, Option.map_none] at fitsBehind
          rw [Put.before_of_fits fits (by simp [kind]), Put.after_of_fits fitsBehind]
          simp [lexeme?, token?, kind]
      | some kind' =>
          simp [lexeme?, token?, kind, Token.lexeme, Token.stop]

theorem keepsApart_iff : KeepsApart written offset chunks ↔
    ∀ token ∈ tokens offset chunks, written token.stop = .lead →
      token.kind = .punctuator ∨ token.kind = .scope := by
  induction chunks generalizing offset with
  | nil => simp [KeepsApart, tokens]
  | cons chunk chunks ih =>
      rw [KeepsApart, ih, tokens_cons_token?]
      simp only [List.forall_mem_append]
      refine and_congr_left fun _ => ?_
      cases kind : chunk.kind with
      | none => simp [isWord, kind, token?]
      | some kind' =>
          have stop : Token.stop ⟨kind', String.ofList chunk.text, offset⟩ =
              offset + Text.byteLength chunk.text := by
            simp [Token.stop]
          simp only [token?, kind, Option.map_some, Option.toList_some, List.forall_mem_singleton, stop]
          cases kind' <;> simp [isWord, kind]

end Named

end Chunk

namespace Source

variable (policy : Policy) (catalog : Catalog) (source : Source)

/-- The token is the first one of a use that has to be qualified. -/
def beginsUse (token : Token) : Bool :=
  (Matches.ofSource catalog source).anonymousReferences.any (·.node.start == token.start)

/-- The tokens of the source, with the name of the file behind the keyword of every anonymous namespace and
in front of every use; a use that begins with `::` has its separator. -/
def namedLexemes : List (TokenKind × String) :=
  let name := (TokenKind.identifier, moduleName source.relativePath)
  (tokenize source.text).flatMap fun token =>
    (if source.beginsUse catalog token then
      if token.isScope then [name] else [name, (.scope, "::")]
    else []) ++
    token.lexeme ::
      (if token.span ∈ (Matches.ofSource catalog source).anonymousNamespaces then [name] else [])

/-- No use with a leading `::` stands directly behind a word, a number or a literal. -/
def NamesApart : Prop :=
  ∀ left ∈ tokenize source.text, ∀ right ∈ tokenize source.text, left.stop = right.start →
    right.isScope = true → source.beginsUse catalog right = true →
      left.kind = .punctuator ∨ left.kind = .scope

instance : Decidable (source.NamesApart catalog) :=
  inferInstanceAs (Decidable (∀ left ∈ tokenize source.text, ∀ right ∈ tokenize source.text, _ → _ →
    _ → _ ∨ _))

/-- The text with its anonymous namespaces named: all patches are recorded, and what is recorded is
applied. -/
def disambiguated? : Option String :=
  match Store.empty.addAll ((source.namingPatches policy catalog).map fun patch => (source, patch)) with
  | .error _ => none
  | .ok store => (Patch.splice source.text (store.recorded source.path)).toOption

theorem namingPatches_compatible : (source.namingPatches policy catalog).Pairwise Patch.Compatible ∧
    ∀ patch ∈ source.namingPatches policy catalog, patch.Fits source.text.toList := by
  obtain ⟨compatible, fits⟩ := Tool.disambiguateSymbols.edits_compatible policy source catalog
  exact ⟨compatible, List.forall_mem_map.mpr fits⟩

/-- No patch is refused, and what is recorded is written as one rewriting of the text. -/
theorem disambiguated?_eq : source.disambiguated? policy catalog =
    some (String.ofList (Patch.rewrite (source.namingPatches policy catalog) source.text.toList)) := by
  obtain ⟨compatible, fits⟩ := source.namingPatches_compatible policy catalog
  obtain ⟨store, accepted, spliced⟩ := Store.splice_recorded compatible fits
  rw [disambiguated?, accepted]
  simp only [spliced]
  rfl

variable {catalog source}

theorem beginsUse_iff {token : Token} : source.beginsUse catalog token = true ↔
    ∃ use ∈ (Matches.ofSource catalog source).anonymousReferences, use.node.start = token.start := by
  simp [beginsUse]

/-- A use and the keyword of a namespace never ask for something at one place. -/
theorem not_label_of_use {use : AnonymousReference}
    (found : use ∈ (Matches.ofSource catalog source).anonymousReferences) :
    source.written catalog use.node.start ≠ .label := by
  intro isLabel
  have asked := (mem_namingPatches_iff default catalog source).mpr (.inr ⟨use, found, rfl⟩)
  have compatible := (namingPatches_compatible default catalog source).1
  have inserted := Patch.insertedAt_of_mem compatible asked
  rw [show Patch.offset _ = use.node.start from rfl,
    insertedAt_written (fun _ => Iff.rfl) compatible, isLabel] at inserted
  obtain ⟨c, rest, parts, start, -⟩ := moduleName_spelled source.relativePath
  obtain ⟨token, -, -, -, patch⟩ := exists_token_of_use catalog source found
  rw [patch] at inserted
  have first : some ' ' = some c := by
    have heads := congrArg List.head? inserted
    simp only [Patch.insert] at heads
    split at heads
    next => rwa [parts] at heads
    next => rwa [String.toList_append, parts] at heads
  rcases start with letter | underscore
  · rw [← Option.some.inj first] at letter
    exact absurd letter (by decide)
  · exact absurd ((Option.some.inj first).trans underscore) (by decide)

/-- In front of a token, names are written for the use that begins with it. -/
theorem written_of_use {token : Token} (inText : token ∈ tokenize source.text)
    (begins : source.beginsUse catalog token = true) :
    source.written catalog token.start = if token.isScope then .lead else .qualify := by
  obtain ⟨use, found, start⟩ := beginsUse_iff.mp begins
  have other := not_label_of_use found
  rw [start] at other
  obtain ⟨-, free⟩ | ⟨-, -, -, token', inText', start', kinds⟩ :=
    written_cases default catalog source other
  · exact absurd start (free _ ((mem_namingPatches_iff _ _ _).mpr (.inr ⟨use, found, rfl⟩)))
  · obtain rfl := token_eq_of_start inText inText' start'.symm
    rcases kinds with ⟨isQualify, isName⟩ | ⟨isLead, isScope⟩
    · have notScope := Token.not_isScope_of_isIdentifier isName
      rw [isQualify, notScope]
      rfl
    · rw [isLead, if_pos isScope]

theorem exists_use_of_written {offset : Nat} (other : source.written catalog offset ≠ .label)
    (something : source.written catalog offset ≠ .nothing) :
    ∃ token ∈ tokenize source.text, token.start = offset ∧ source.beginsUse catalog token = true := by
  obtain ⟨nothing, -⟩ | ⟨use, found, start, token, inText, begins, -⟩ :=
    written_cases default catalog source other
  · exact absurd nothing something
  · exact ⟨token, inText, begins, beginsUse_iff.mpr ⟨use, found, start.trans begins.symm⟩⟩

theorem before_written {token : Token} (inText : token ∈ tokenize source.text) :
    (source.written catalog token.start).before (moduleName source.relativePath) =
      if source.beginsUse catalog token then
        if token.isScope then [(.identifier, moduleName source.relativePath)]
        else [(.identifier, moduleName source.relativePath), (.scope, "::")]
      else [] := by
  split
  next begins =>
    rw [written_of_use inText begins]
    split <;> rfl
  next plain =>
    by_cases isLabel : source.written catalog token.start = .label
    · rw [isLabel]
      rfl
    by_cases nothing : source.written catalog token.start = .nothing
    · rw [nothing]
      rfl
    obtain ⟨token', inText', start, begins⟩ := exists_use_of_written isLabel nothing
    exact absurd (token_eq_of_start inText inText' start.symm ▸ begins) plain

theorem after_written {token : Token} (inText : token ∈ tokenize source.text) :
    (source.written catalog token.stop).after (moduleName source.relativePath) =
      if token.span ∈ (Matches.ofSource catalog source).anonymousNamespaces then
        [(.identifier, moduleName source.relativePath)]
      else [] := by
  split
  next known =>
    have isLabel : source.written catalog token.stop = .label :=
      (source.written_label catalog).mpr ⟨_, known, rfl⟩
    rw [isLabel]
    rfl
  next unknown =>
    refine if_neg fun isLabel => unknown ?_
    obtain ⟨keyword, found, stop⟩ := (source.written_label catalog).mp isLabel
    have inOutline := found
    rw [anonymousNamespaces_found] at inOutline
    obtain ⟨token', inText', rfl⟩ := exists_token_of_keyword inOutline
    exact token_eq_of_stop inText inText' stop.symm ▸ found

theorem written_lead {offset : Nat} : source.written catalog offset = .lead ↔
    ∃ token ∈ tokenize source.text, token.start = offset ∧ token.isScope = true ∧
      source.beginsUse catalog token = true := by
  constructor
  · intro isLead
    obtain ⟨token, inText, rfl, begins⟩ :=
      exists_use_of_written (by simp [isLead]) (by simp [isLead] : source.written catalog offset ≠ _)
    refine ⟨token, inText, rfl, ?_, begins⟩
    by_contra notScope
    rw [written_of_use inText begins, if_neg notScope] at isLead
    simp at isLead
  · rintro ⟨token, inText, rfl, isScope, begins⟩
    rw [written_of_use inText begins, if_pos isScope]

section Chunks

open Chunk

variable {whole : List Chunk} (parts : flatten whole = source.text.toList) (reads : Reads true [] whole)

include parts reads

theorem namedLexemes_eq : source.namedLexemes catalog =
    (source.written catalog 0).lexemes (moduleName source.relativePath) ++
      named (moduleName source.relativePath) (source.written catalog) 0 whole := by
  have fitting : Fitting (source.written catalog) none 0 whole := fitting_written parts reads
  rw [← Put.lexemes_eq, Put.after_of_fits fitting.here, List.nil_append, named_eq_flatMap fitting,
    ← tokenize_of_reads parts reads, namedLexemes]
  refine List.flatMap_congr fun token inText => ?_
  rw [before_written inText, after_written inText]

theorem namesApart_iff : source.NamesApart catalog ↔ KeepsApart (source.written catalog) 0 whole := by
  rw [keepsApart_iff, ← tokenize_of_reads parts reads]
  refine forall_congr' fun left => forall_congr' fun _ => ?_
  rw [written_lead]
  constructor
  · rintro apart ⟨right, inText, start, isScope, begins⟩
    exact apart right inText start.symm isScope begins
  · exact fun apart right inText stop isScope begins =>
      apart ⟨right, inText, stop.symm, isScope, begins⟩

end Chunks

/-- Naming anonymous namespaces always succeeds. It puts the names between the tokens and leaves these as
they are, just if no use with a leading `::` stands directly behind a word, a number or a literal. -/
theorem tokens_disambiguated (source : Source) (policy : Policy) (catalog : Catalog)
    (free : moduleName source.relativePath ∉ keywords) :
    ∃ rewritten, source.disambiguated? policy catalog = some rewritten ∧
      ((tokenize rewritten).map Token.lexeme = source.namedLexemes catalog ↔
        source.NamesApart catalog) := by
  obtain ⟨compatible, -⟩ := source.namingPatches_compatible policy catalog
  refine ⟨_, source.disambiguated?_eq policy catalog, ?_⟩
  have isName := moduleName_isName free
  obtain ⟨whole, parts, reads⟩ := Chunk.exists_reads true source.text.toList
  have fitting : Chunk.Fitting (source.written catalog) none 0 whole := fitting_written parts reads
  obtain ⟨result, becomes, tokensEq⟩ := Chunk.tokenize_woven isName fitting reads
  rw [← parts, rewrite_written (fun _ => Iff.rfl) compatible parts reads, tokensEq,
    namedLexemes_eq parts reads, namesApart_iff parts reads, Chunk.tokens_map_lexeme,
    List.filterMap_append, Chunk.Put.lexemes_chunks isName, List.append_right_inj]
  exact (becomes.lexemes_iff isName).2

set_option maxRecDepth 100000 in
/-- A namespace, a use with a leading `::` and a use without one. -/
theorem tokens_disambiguated_uses :
    let source : Source :=
      ⟨⟨"/p/a.cpp"⟩, "a.cpp", "namespace \x7b int x; \x7d\nint y = ::x + x;\n"⟩
    let catalog := (Codebase.ofSources [] [] [source]).catalog
    moduleName source.relativePath ∉ keywords ∧
      (source.namingPatches .standard catalog).map (·.text) = [" a", "a", "a::"] ∧
      ∃ rewritten, source.disambiguated? .standard catalog = some rewritten ∧
        (tokenize rewritten).map Token.lexeme = source.namedLexemes catalog := by
  intro source catalog
  have evaluated : moduleName source.relativePath ∉ keywords ∧
      (source.namingPatches .standard catalog).map (·.text) = [" a", "a", "a::"] ∧
      source.NamesApart catalog := by
    decide +kernel
  obtain ⟨free, patches, apart⟩ := evaluated
  obtain ⟨rewritten, result, same⟩ := tokens_disambiguated source .standard catalog free
  exact ⟨free, patches, rewritten, result, same.mpr apart⟩

set_option maxRecDepth 100000 in
/-- Directly behind a keyword the name becomes a part of it. -/
theorem naming_joins_tokens :
    ¬∀ (source : Source) (policy : Policy) (catalog : Catalog),
      moduleName source.relativePath ∉ keywords →
      ∃ rewritten, source.disambiguated? policy catalog = some rewritten ∧
        (tokenize rewritten).map Token.lexeme = source.namedLexemes catalog := by
  intro claim
  let source : Source :=
    ⟨⟨"/p/a.cpp"⟩, "a.cpp", "namespace \x7b int x; \x7d\nint f() \x7b return::x; \x7d\n"⟩
  let catalog := (Codebase.ofSources [] [] [source]).catalog
  have evaluated : moduleName source.relativePath ∉ keywords ∧
      (tokenize (String.ofList (Patch.rewrite (source.namingPatches .standard catalog)
        source.text.toList))).map Token.lexeme ≠ source.namedLexemes catalog := by
    decide +kernel
  obtain ⟨free, differs⟩ := evaluated
  obtain ⟨rewritten, result, same⟩ := claim source .standard catalog free
  rw [disambiguated?_eq, Option.some.injEq] at result
  exact differs (result ▸ same)

end Source

end Requalify
