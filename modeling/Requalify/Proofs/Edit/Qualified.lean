import Requalify.Proofs.Edit.Requalified
import Requalify.Proofs.Run

/-!
Qualifying all references of a text, as it shows in its tokens. Every edit stays in the chain of its
mention, and no two chains share a token, so the tokens of the result are those of the chains with their
edits and the old ones elsewhere.
-/

namespace Requalify

namespace Footprint

variable {text : String} {print later : Footprint} {chain other : NameChain}
  (within : print.tokens <:+ tokenize text) (spelled : chain.Spelled print.front print.last)

include within spelled

theorem chain_span : chain.span.start = print.first.start ∧ chain.span.stop = print.last.stop ∧
    print.first.start < print.last.stop := by
  have start := start_of_spelled spelled
  have stop : chain.stop = print.last.stop := by rw [NameChain.stop, spelled.name]; rfl
  have first := first_start_le within
  have last := (last_placed within).start_lt_stop
  refine ⟨start, ?_, by omega⟩
  rw [NameChain.span, Span.between, start, stop]
  exact Nat.max_eq_right (by omega)

theorem chain_before (laterWithin : later.tokens <:+ tokenize text)
    (laterSpelled : other.Spelled later.front later.last) (follows : later.Follows print) :
    chain.span.stop ≤ other.span.start := by
  obtain ⟨rest, tokens⟩ := later.tokens_eq_cons
  rw [Follows, tokens] at follows
  rw [(chain_span within spelled).2.1, (chain_span laterWithin laterSpelled).1]
  exact (last_placed within).stop_le (follows.subset (by simp))

end Footprint

/-- The chains of the mentions stand one behind the other. -/
theorem Outline.mentions_ordered (text : String) :
    (Outline.ofText text).mentions.Pairwise fun left right =>
      left.chain.span.stop ≤ right.chain.span.start := by
  obtain ⟨log, trail⟩ := Outline.ofText_trail text
  have ordered : (log.map (·.landmark)).Pairwise fun left right => ∀ mention, left = .mention mention →
      ∀ other, right = .mention other → mention.chain.span.stop ≤ other.chain.span.start := by
    refine List.pairwise_map.mpr (trail.ordered.imp_of_mem ?_)
    intro earlier later member laterMember follows mention isMention other isOther
    have describes := (trail.valid earlier member).describes
    have laterDescribes := (trail.valid later laterMember).describes
    rw [isMention] at describes
    rw [isOther] at laterDescribes
    exact Footprint.chain_before (trail.within earlier member) describes
      (trail.within later laterMember) laterDescribes follows
  have fewer := List.pairwise_map.mp (ordered.sublist trail.mentions)
  exact fewer.imp fun apart => apart _ rfl _ rfl

/-- The chain of a mention, in the chunks of the text. -/
theorem Outline.mention_written {text : String} {whole : List Chunk} {mention : Mention}
    (parts : Chunk.flatten whole = text.toList) (reads : Chunk.Reads true [] whole)
    (known : mention ∈ (Outline.ofText text).mentions) : ∃ front lead segments gaps last back,
      mention.chain.Written whole front lead segments gaps last back := by
  obtain ⟨log, trail⟩ := Outline.ofText_trail text
  obtain ⟨print, inLog, landmark⟩ :=
    List.mem_map.mp (trail.mentions.subset (List.mem_map_of_mem known))
  have spelled : mention.chain.Spelled print.front print.last := by
    have describes := (trail.valid print inLog).describes
    rwa [landmark] at describes
  have inTokens := trail.within print inLog
  rw [Chunk.tokenize_of_reads parts reads] at inTokens
  obtain ⟨passed, tokensEq⟩ := inTokens
  exact NameChain.exists_written reads spelled tokensEq.symm

/-- The reference that a mention is, if it is one. -/
def Environment.referenceAt (environment : Environment) (mention : Mention) : Option Reference :=
  match environment.resolve mention with
  | .found item =>
      if item.anonymous || item.declaration.path.isGlobal then none
      else some ⟨item.node, item.declaration, environment.outline.contextOf mention.scope⟩
  | _ => none

theorem Matches.references_eq (environment : Environment) :
    (ofEnvironment environment).references =
      environment.outline.mentions.filterMap environment.referenceAt := by
  simp only [ofEnvironment, List.filterMap_filterMap]
  congr 1
  funext mention
  unfold Environment.referenceAt
  cases environment.resolve mention with
  | bound => rfl
  | unresolved => rfl
  | found item => rfl

namespace Environment

variable {environment : Environment} {mention : Mention} {reference : Reference}

theorem resolve_of_referenceAt (found : environment.referenceAt mention = some reference) :
    ∃ item, environment.resolve mention = .found item ∧ item.node = reference.node ∧
      item.declaration = reference.declaration := by
  unfold referenceAt at found
  split at found
  next item resolution =>
    split at found
    next => simp at found
    next =>
      obtain rfl := Option.some.inj found
      exact ⟨item, resolution, rfl, rfl⟩
  next => simp at found

/-- The node of a reference has the first names of the chain of its mention, and the next one is the name
of the declaration. -/
theorem referenceAt_qualifies (found : environment.referenceAt mention = some reference) :
    ∃ passed, reference.node.Qualifies mention.chain passed ∧
      (mention.chain.nameBehind passed).text = reference.declaration.name := by
  obtain ⟨item, resolution, node, declaration⟩ := resolve_of_referenceAt found
  rw [← node, ← declaration]
  exact resolve_qualifies resolution

theorem referenceAt_writable (writable : environment.Writable)
    (found : environment.referenceAt mention = some reference) :
    reference.declaration.path.Writable := by
  obtain ⟨item, resolution, -, declaration⟩ := resolve_of_referenceAt found
  exact declaration ▸ resolve_writable writable resolution

end Environment

namespace Source

variable (source : Source) (policy : Policy) (catalog : Catalog)

def references : List Reference :=
  (Matches.ofSource catalog source).references

/-- The edits that qualify the references of a source. -/
def qualifications : List Edit :=
  (source.references catalog).filterMap (Edit.ofReference policy source)

/-- The references that there is an edit for. -/
def requalified : List Reference :=
  (source.references catalog).filter fun reference => (Edit.ofReference policy source reference).isSome

/-- The text with its references qualified: all edits are recorded, and what is recorded is applied. -/
def qualified? : Option String :=
  match Store.empty.addAll
      ((source.qualifications policy catalog).map fun edit => (source, edit.patch)) with
  | .error _ => none
  | .ok store => (Patch.splice source.text (store.recorded source.path)).toOption

end Source

/-- The token is the first name of the reference or belongs to the written names of its qualifier. -/
def Reference.touches (reference : Reference) (token : Token) : Bool :=
  reference.node.firstName.span.start == token.start || reference.qualifies token

/-- The tokens of a text after its edits: those of each written qualifier are replaced. -/
def Source.requalifiedLexemes (source : Source) (policy : Policy) (catalog : Catalog) :
    List (TokenKind × String) :=
  (tokenize source.text).flatMap fun token =>
    match (source.requalified policy catalog).find? (·.touches token) with
    | some reference => reference.rewritten policy token
    | none => [token.lexeme]

theorem Reference.rewritten_untouched {policy : Policy} {reference : Reference} {token : Token}
    (untouched : reference.touches token = false) : reference.rewritten policy token = [token.lexeme] := by
  rw [touches, Bool.or_eq_false_iff, beq_eq_false_iff_ne] at untouched
  rw [rewritten, if_neg untouched.1, untouched.2, if_neg (by decide)]
  rfl

/-- A reference with its edit and the chain where it is written. -/
structure Site where
  chain : Span
  reference : Reference
  edit : Edit

namespace Site

open Chunk

/-- How a site is written in the chunks of its text, and what the edit makes of them. -/
structure Written (site : Site) (policy : Policy) (whole : List Chunk) (names : List String)
    (front lead blanks region kept left back : List Chunk) : Prop where
  requalified : Requalified whole site.chain site.edit.patch names front lead blanks region
    (kept ++ left) back
  stop : site.reference.node.qualifierSpan.stop =
    Text.byteLength (flatten (front ++ (lead ++ (blanks ++ region) ++ kept)))
  spelling : nameLexemes names ++ kept.filterMap lexeme? = site.reference.spelledLexemes policy
  first : ∃ first more, tokens (Text.byteLength (flatten (front ++ lead)))
      (blanks ++ region ++ (kept ++ left)) = first :: more ∧
    first.start = site.reference.node.firstName.span.start

variable {site : Site} {policy : Policy} {whole : List Chunk} {names : List String}
  {front lead blanks region kept left back : List Chunk}
  (written : site.Written policy whole names front lead blanks region kept left back)

include written

/-- The tokens that a site touches are tokens of its chain. -/
theorem Written.contains {token : Token} (touches : site.reference.touches token = true) :
    site.chain.Contains token.start := by
  have start := written.requalified.start
  have stop := written.requalified.stop
  have qualifierStop := written.stop
  obtain ⟨first, more, tokensEq, isFirst⟩ := written.first
  have inTokens : first ∈ tokens _ (blanks ++ region ++ (kept ++ left)) := tokensEq ▸ List.mem_cons_self
  obtain ⟨from_, upTo⟩ := start_of_mem_tokens inTokens
  simp only [flatten_append, Text.byteLength_append] at start stop qualifierStop from_ upTo
  rw [Reference.touches, Bool.or_eq_true, beq_iff_eq, Reference.qualifies, Bool.and_eq_true,
    decide_eq_true_eq, decide_eq_true_eq] at touches
  rw [Span.Contains]
  omega

theorem Written.rewrites {patches : List Patch} {replace : Token → List (TokenKind × String)}
    (alone : ∀ place, site.chain.Contains place →
      Patch.insertedAt patches place = Patch.insertedAt [site.edit.patch] place ∧
        Patch.covers patches place = Patch.covers [site.edit.patch] place)
    (replaces : ∀ token : Token, site.chain.Contains token.start →
      replace token = site.reference.rewritten policy token) :
    Rewrites patches replace front (lead ++ (blanks ++ region) ++ (kept ++ left))
      (lead ++ (blanks ++ ofNames names) ++ (kept ++ left)) back := by
  obtain ⟨first, more, tokensEq, isFirst⟩ := written.first
  refine written.requalified.rewrites alone ?_
  rw [← Requalify.Requalified.lexemes written.requalified written.stop written.spelling tokensEq isFirst]
  refine List.flatMap_congr fun token member => replaces token ?_
  have start := written.requalified.start
  have stop := written.requalified.stop
  obtain ⟨from_, upTo⟩ := start_of_mem_tokens member
  rw [flatten_append front, Text.byteLength_append] at stop
  exact ⟨by omega, by omega⟩

end Site
namespace Source

variable (source : Source) (policy : Policy) (catalog : Catalog)

/-- The references with an edit, in the order of their mentions. -/
def sites : List Site :=
  let environment := Environment.ofOutline (Outline.ofText source.text) catalog
  (Outline.ofText source.text).mentions.filterMap fun mention =>
    (environment.referenceAt mention).bind fun reference =>
      (Edit.ofReference policy source reference).map fun edit => ⟨mention.chain.span, reference, edit⟩

variable {source policy catalog}

theorem mem_sites {site : Site} (member : site ∈ source.sites policy catalog) :
    ∃ mention ∈ (Outline.ofText source.text).mentions, mention.chain.span = site.chain ∧
      (Environment.ofOutline (Outline.ofText source.text) catalog).referenceAt mention =
        some site.reference ∧
      Edit.ofReference policy source site.reference = some site.edit := by
  obtain ⟨mention, known, bound⟩ := List.mem_filterMap.mp member
  obtain ⟨reference, isReference, mapped⟩ := Option.bind_eq_some_iff.mp bound
  obtain ⟨edit, asked, rfl⟩ := Option.map_eq_some_iff.mp mapped
  exact ⟨mention, known, rfl, isReference, asked⟩

theorem references_eq : source.references catalog =
    (Outline.ofText source.text).mentions.filterMap
      (Environment.ofOutline (Outline.ofText source.text) catalog).referenceAt := by
  rw [references, Matches.ofSource, Matches.references_eq, Environment.ofOutline_outline]

/-- A reference is written with the first names of a chain, and the next one is the name of its
declaration. -/
theorem reference_written {whole : List Chunk} {reference : Reference}
    (parts : Chunk.flatten whole = source.text.toList) (reads : Chunk.Reads true [] whole)
    (member : reference ∈ source.references catalog) :
    ∃ (chain : NameChain) (passed : _) (front lead : _) (segments : _) (gaps : _) (last : _) (back : _),
      chain.Written whole front lead segments gaps last back ∧ reference.node.Qualifies chain passed ∧
        (chain.nameBehind passed).text = reference.declaration.name := by
  rw [references_eq] at member
  obtain ⟨mention, known, isReference⟩ := List.mem_filterMap.mp member
  obtain ⟨front, lead, segments, gaps, last, back, written⟩ :=
    Outline.mention_written parts reads known
  obtain ⟨passed, qualifies, name⟩ := Environment.referenceAt_qualifies isReference
  exact ⟨mention.chain, passed, front, lead, segments, gaps, last, back, written, qualifies, name⟩

theorem reference_writable {reference : Reference} (writable : catalog.Writable)
    (member : reference ∈ source.references catalog) : reference.declaration.path.Writable := by
  rw [references_eq] at member
  obtain ⟨mention, -, isReference⟩ := List.mem_filterMap.mp member
  exact Environment.referenceAt_writable
    (Environment.ofOutline_writable (Outline.ofText_writable source.text) writable) isReference

theorem sites_edits :
    (source.sites policy catalog).map (·.edit) = source.qualifications policy catalog := by
  rw [sites, qualifications, references_eq, List.filterMap_filterMap, List.map_filterMap]
  congr 1
  funext mention
  cases (Environment.ofOutline (Outline.ofText source.text) catalog).referenceAt mention with
  | none => rfl
  | some reference => simp [Function.comp_def]

theorem sites_references :
    (source.sites policy catalog).map (·.reference) = source.requalified policy catalog := by
  rw [sites, requalified, references_eq, List.filter_filterMap, List.map_filterMap]
  congr 1
  funext mention
  cases (Environment.ofOutline (Outline.ofText source.text) catalog).referenceAt mention with
  | none => rfl
  | some reference =>
      cases asked : Edit.ofReference policy source reference with
      | none => simp [asked, Option.filter]
      | some edit => simp [asked, Option.filter]

/-- The chains of the sites have no place in common. -/
theorem sites_ordered : (source.sites policy catalog).Pairwise fun left right =>
    left.chain.stop ≤ right.chain.start := by
  refine List.pairwise_filterMap.mpr ((Outline.mentions_ordered source.text).imp ?_)
  intro mention other apart site isSite later isLater
  obtain ⟨reference, -, mapped⟩ := Option.bind_eq_some_iff.mp isSite
  obtain ⟨edit, -, rfl⟩ := Option.map_eq_some_iff.mp mapped
  obtain ⟨reference, -, mapped⟩ := Option.bind_eq_some_iff.mp isLater
  obtain ⟨edit, -, rfl⟩ := Option.map_eq_some_iff.mp mapped
  exact apart

theorem site_unique {site other : Site} (member : site ∈ source.sites policy catalog)
    (otherMember : other ∈ source.sites policy catalog) {place : Nat}
    (inside : site.chain.Contains place) (otherInside : other.chain.Contains place) : site = other := by
  have ordered : (source.sites policy catalog).Pairwise fun left right =>
      ¬left.chain.Contains place ∨ ¬right.chain.Contains place :=
    sites_ordered.imp fun {left right} apart => by
      simp only [Span.Contains]
      omega
  have : Std.Symm fun left right : Site => ¬left.chain.Contains place ∨ ¬right.chain.Contains place :=
    ⟨fun _ _ => Or.symm⟩
  by_contra different
  rcases ordered.forall member otherMember different with outside | outside
  · exact outside inside
  · exact outside otherInside

variable (source policy catalog) in
theorem qualifications_compatible :
    ((source.qualifications policy catalog).map (·.patch)).Pairwise Patch.Compatible ∧
      ∀ edit ∈ source.qualifications policy catalog, edit.patch.Fits source.text.toList := by
  have whole := Tool.inlineNamespaces.edits_compatible policy source catalog
  have fewer : (source.qualifications policy catalog).Sublist
      ((Tool.inlineNamespaces.edits policy source (Matches.ofSource catalog source)).filterMap id) := by
    rw [Tool.edits, List.filterMap_append, List.filterMap_map]
    exact List.sublist_append_left _ _
  exact ⟨whole.1.sublist (fewer.map _), fun edit member => whole.2 edit (fewer.subset member)⟩

section Splits

open Chunk

variable {whole : List Chunk} (parts : flatten whole = source.text.toList) (reads : Reads true [] whole)
  (narrow : Text.Narrow source.text.toList) (writable : catalog.Writable)
  (splits : ∀ reference ∈ source.requalified policy catalog,
    source.splitsAtTokens reference.node.qualifierSpan = true)

include parts reads narrow writable splits

theorem site_written {site : Site} (member : site ∈ source.sites policy catalog) :
    ∃ names front lead blanks region kept left back,
      site.Written policy whole names front lead blanks region kept left back := by
  obtain ⟨mention, known, chain, isReference, asked⟩ := mem_sites member
  obtain ⟨front, lead, segments, gaps, final, back, written⟩ :=
    Outline.mention_written parts reads known
  obtain ⟨passed, qualifies, -⟩ := Environment.referenceAt_qualifies isReference
  have pathWritable := Environment.referenceAt_writable
    (Environment.ofOutline_writable (Outline.ofText_writable source.text) writable) isReference
  have inRequalified : site.reference ∈ source.requalified policy catalog := by
    rw [← sites_references]
    exact List.mem_map_of_mem member
  obtain ⟨names, blanks, region, kept, chunks, requalified, spelling⟩ :=
    Edit.exists_requalified parts reads (narrow.slice _) written qualifies pathWritable
      (splits _ inRequalified) asked
  obtain ⟨-, stop⟩ := written.qualifier qualifies
  have first := written.first
  rw [Segment.flatMap_split segments passed.length, chunks, List.append_assoc, List.append_assoc] at first
  obtain ⟨token, head, start⟩ := Option.map_eq_some_iff.mp first
  obtain ⟨more, tokensEq⟩ := List.head?_eq_some_iff.mp head
  obtain ⟨item, resolution, node, -⟩ := Environment.resolve_of_referenceAt isReference
  have spells : site.reference.node.Spells mention.chain := node ▸ Environment.resolve_spells resolution
  refine ⟨names, front, lead, blanks, region, kept, _, back, chain ▸ requalified, ?_, spelling,
    token, more, tokensEq, start.trans (congrArg (·.span.start) spells.firstName.symm)⟩
  rw [stop, chunks, ← List.append_assoc lead]

theorem patch_inside {site : Site} (member : site ∈ source.sites policy catalog) :
    site.chain.start ≤ site.edit.patch.offset ∧ site.edit.patch.span.stop < site.chain.stop := by
  obtain ⟨_, _, _, _, _, _, _, _, written⟩ := site_written parts reads narrow writable splits member
  exact written.requalified.inside

/-- The patches of sites have no effect outside their chains. -/
theorem patches_elsewhere {others : List Site}
    (subset : ∀ other ∈ others, other ∈ source.sites policy catalog) {place : Nat}
    (apart : ∀ other ∈ others, ¬other.chain.Contains place) :
    Patch.insertedAt (others.map (·.edit.patch)) place = [] ∧
      Patch.covers (others.map (·.edit.patch)) place = false := by
  have far : ∀ other ∈ others, other.edit.patch.offset ≠ place ∧
      ¬other.edit.patch.span.Contains place := by
    intro other member
    have bounds := patch_inside parts reads narrow writable splits (subset other member)
    have outside := apart other member
    have start : other.edit.patch.span.start = other.edit.patch.offset := rfl
    have ordered := other.edit.patch.span.start_le_stop
    simp only [Span.Contains] at outside ⊢
    omega
  refine ⟨Patch.insertedAt_of_free fun patch inOthers => ?_, List.any_eq_false.mpr fun patch inOthers => ?_⟩
  · obtain ⟨other, member, rfl⟩ := List.mem_map.mp inOthers
    exact (far other member).1
  · obtain ⟨other, member, rfl⟩ := List.mem_map.mp inOthers
    simpa using (far other member).2

/-- Within the chain of a site no other patch has any effect. -/
theorem patch_alone {site : Site} (member : site ∈ source.sites policy catalog) {place : Nat}
    (inside : site.chain.Contains place) :
    let patches := (source.sites policy catalog).map (·.edit.patch)
    Patch.insertedAt patches place = Patch.insertedAt [site.edit.patch] place ∧
      Patch.covers patches place = Patch.covers [site.edit.patch] place := by
  have elsewhere {others : List Site} :=
    @patches_elsewhere _ _ _ _ parts reads narrow writable splits others
  have ordered := @sites_ordered source policy catalog
  intro patches
  obtain ⟨before, behind, parts⟩ := List.append_of_mem member
  rw [parts, List.pairwise_append, List.pairwise_cons] at ordered
  obtain ⟨-, ⟨later, -⟩, earlier⟩ := ordered
  simp only [Span.Contains] at inside
  obtain ⟨noneBefore, clearBefore⟩ := @elsewhere before
    (fun other otherMember => by simp [parts, otherMember]) place fun other otherMember => by
      have apart := earlier other otherMember site (by simp)
      simp only [Span.Contains]
      omega
  obtain ⟨noneBehind, clearBehind⟩ := @elsewhere behind
    (fun other otherMember => by simp [parts, otherMember]) place fun other otherMember => by
      have apart := later other otherMember
      simp only [Span.Contains]
      omega
  have patchesEq : patches = before.map (·.edit.patch) ++
      site.edit.patch :: behind.map (·.edit.patch) := by simp [patches, parts]
  rw [patchesEq]
  constructor
  · rw [Patch.insertedAt, List.filter_append, List.flatMap_append]
    change Patch.insertedAt _ place ++ Patch.insertedAt _ place = _
    rw [noneBefore, Patch.insertedAt_cons, Patch.insertedAt_cons, noneBehind]
    rfl
  · rw [Patch.covers, List.any_append]
    change (Patch.covers _ place || Patch.covers _ place) = _
    rw [clearBefore, Patch.covers_cons, Patch.covers_cons, clearBehind]
    rfl

theorem tokens_of_splits :
    (tokenize (String.ofList (Patch.rewrite ((source.qualifications policy catalog).map (·.patch))
      source.text.toList))).map Token.lexeme = source.requalifiedLexemes policy catalog := by
  have within {site : Site} := @site_written _ _ _ _ parts reads narrow writable splits site
  have alone {site : Site} := @patch_alone _ _ _ _ parts reads narrow writable splits site
  have elsewhere {place : Nat} :=
    @patches_elsewhere _ _ _ _ parts reads narrow writable splits _ (fun _ => id) place
  clear splits narrow writable
  let spans := (source.sites policy catalog).map (·.chain)
  have patchesEq : (source.qualifications policy catalog).map (·.patch) =
      (source.sites policy catalog).map (·.edit.patch) := by
    rw [← sites_edits, List.map_map]
    rfl
  have touching {token : Token} {reference : Reference}
      (touched : (source.requalified policy catalog).find? (·.touches token) = some reference) :
      ∃ site ∈ source.sites policy catalog, site.reference = reference ∧
        site.chain.Contains token.start := by
    have known := List.mem_of_find?_eq_some touched
    rw [← sites_references] at known
    obtain ⟨site, member, rfl⟩ := List.mem_map.mp known
    obtain ⟨_, _, _, _, _, _, _, _, written⟩ := within member
    have touches := List.find?_some touched
    exact ⟨site, member, rfl, written.contains touches⟩
  rw [patchesEq, ← parts, requalifiedLexemes, tokenize_of_reads parts reads]
  refine @tokenize_rewrite _ _ _ spans ?_ ?_ ?_ ?_ reads
  · intro span member
    obtain ⟨site, inSites, rfl⟩ := List.mem_map.mp member
    obtain ⟨names, front, lead, blanks, region, kept, left, back, written⟩ := within inSites
    refine ⟨front, _, _, back, written.requalified.parts, written.requalified.start,
      written.requalified.stop, written.rewrites (fun place => alone inSites) fun token here => ?_⟩
    split
    next reference touched =>
      obtain ⟨other, otherMember, rfl, there⟩ := touching touched
      rw [site_unique inSites otherMember here there]
    next untouched =>
      refine (Reference.rewritten_untouched (Bool.eq_false_iff.mpr ?_)).symm
      refine List.find?_eq_none.mp untouched _ ?_
      rw [← sites_references]
      exact List.mem_map_of_mem inSites
  · refine List.pairwise_map.mpr (sites_ordered.imp fun {left right} apart overlap => ?_)
    simp only [Span.Overlaps] at overlap
    omega
  · intro place outside
    exact elsewhere fun site member => outside site.chain (List.mem_map_of_mem member)
  · intro token member outside
    split
    next reference touched =>
      obtain ⟨site, inSites, -, here⟩ := touching touched
      exact absurd here (outside _ (List.mem_map_of_mem inSites))
    next => rfl

end Splits

/-- Qualifying the references of a text always succeeds. If all separators in the written qualifiers are
tokens, the tokens of each qualifier with an edit are replaced by those of the names to spell, and no
others change. -/
theorem tokens_requalified (source : Source) (policy : Policy) (files : List (String × Bool))
    (narrow : Text.Narrow source.text.toList) :
    ∃ rewritten, source.qualified? policy (Catalog.ofTexts files) = some rewritten ∧
      ((∀ reference ∈ source.requalified policy (Catalog.ofTexts files),
        source.splitsAtTokens reference.node.qualifierSpan = true) →
      (tokenize rewritten).map Token.lexeme =
        source.requalifiedLexemes policy (Catalog.ofTexts files)) := by
  obtain ⟨compatible, fits⟩ := source.qualifications_compatible policy (Catalog.ofTexts files)
  obtain ⟨store, accepted, spliced⟩ := Store.splice_recorded compatible
    (List.forall_mem_map.mpr fits)
  rw [List.map_map] at accepted
  have result : source.qualified? policy (Catalog.ofTexts files) = some (String.ofList
      (Patch.rewrite ((source.qualifications policy (Catalog.ofTexts files)).map (·.patch))
        source.text.toList)) := by
    rw [qualified?, show (fun edit : Edit => (source, edit.patch)) =
      (fun patch => (source, patch)) ∘ (·.patch) from rfl, accepted]
    simp only [spliced]
    rfl
  refine ⟨_, result, fun splits => ?_⟩
  obtain ⟨whole, parts, reads⟩ := Chunk.exists_reads true source.text.toList
  exact tokens_of_splits parts reads narrow (Catalog.ofTexts_writable files) splits

set_option maxRecDepth 100000 in
/-- A comment in the qualifier does no harm without a separator in it. -/
theorem tokens_requalified_comment :
    let source : Source := ⟨⟨"/p/a.cpp"⟩, "a.cpp",
      "using namespace std;\nchrono /* unit */ ::\n  seconds s;\n"⟩
    let files := [("namespace std \x7b namespace chrono \x7b struct seconds; \x7d \x7d", true)]
    source.requalified .standard (Catalog.ofTexts files) ≠ [] ∧
    Text.Narrow source.text.toList ∧
    (∀ reference ∈ source.requalified .standard (Catalog.ofTexts files),
      source.splitsAtTokens reference.node.qualifierSpan = true) ∧
    ∃ rewritten, source.qualified? .standard (Catalog.ofTexts files) = some rewritten ∧
      (tokenize rewritten).map Token.lexeme =
        source.requalifiedLexemes .standard (Catalog.ofTexts files) := by
  intro source files
  have evaluated : Text.Narrow source.text.toList ∧
      source.requalified .standard (Catalog.ofTexts files) ≠ [] ∧
      ∀ reference ∈ source.requalified .standard (Catalog.ofTexts files),
        source.splitsAtTokens reference.node.qualifierSpan = true := by
    decide +kernel
  obtain ⟨narrow, asked, splits⟩ := evaluated
  obtain ⟨rewritten, result, same⟩ := tokens_requalified source .standard files narrow
  exact ⟨asked, narrow, splits, rewritten, result, same splits⟩

set_option maxRecDepth 100000 in
/-- A separator in a comment is read as one of the qualifier, and what stands in front of it in the
comment as a name. -/
theorem comment_splits_qualifier :
    ¬∀ (source : Source) (policy : Policy) (files : List (String × Bool)),
      Text.Narrow source.text.toList → (∀ file ∈ files, Text.Narrow file.1.toList) →
      ∃ rewritten, source.qualified? policy (Catalog.ofTexts files) = some rewritten ∧
        (tokenize rewritten).map Token.lexeme =
          source.requalifiedLexemes policy (Catalog.ofTexts files) := by
  intro claim
  let source : Source := ⟨⟨"/p/a.cpp"⟩, "a.cpp", "using namespace std;chrono//::\n::seconds s;"⟩
  let files := [("namespace std\x7bnamespace chrono\x7bstruct seconds;\x7d\x7d", true)]
  have evaluated : Text.Narrow source.text.toList ∧ (∀ file ∈ files, Text.Narrow file.1.toList) ∧
      (source.qualified? .standard (Catalog.ofTexts files)).map
        (fun text => (tokenize text).map Token.lexeme) ≠
          some (source.requalifiedLexemes .standard (Catalog.ofTexts files)) := by
    decide +kernel
  obtain ⟨narrow, narrowFiles, differs⟩ := evaluated
  obtain ⟨rewritten, result, same⟩ := claim source .standard files narrow narrowFiles
  exact differs (by rw [result, ← same]; rfl)

end Source

end Requalify
