import Requalify.FilePath

/-!
Paths as seen from a root. The pieces of a text and its components agree, reading a base off a path leaves
the other components, and the text that is left says which ones they are: two paths read from inside one root
that look the same from there name the same entry.
-/

namespace Requalify

namespace FilePath

theorem pieces_ne_nil (text : List Char) : pieces text ≠ [] := by
  fun_induction pieces text <;> simp

theorem joinPieces_pieces (text : List Char) : joinPieces (pieces text) = text := by
  fun_induction pieces text with
  | case1 => rfl
  | case2 rest ih =>
      rw [joinPieces, List.intercalate_cons_of_ne_nil (pieces_ne_nil rest), ← joinPieces, ih]
      rfl
  | case3 c rest _ empty => exact absurd empty (pieces_ne_nil rest)
  | case4 c rest _ piece more split ih =>
      rw [split, joinPieces] at ih
      rw [joinPieces, ← ih]
      cases more with
      | nil => simp
      | cons next more => simp

theorem pieces_slash (left right : List Char) :
    pieces (left ++ '/' :: right) = pieces left ++ pieces right := by
  fun_induction pieces left with
  | case1 => rfl
  | case2 rest ih => simp [pieces, ih]
  | case3 c rest _ empty => exact absurd empty (pieces_ne_nil rest)
  | case4 c rest notSlash piece more split ih =>
      rw [List.cons_append, pieces, ih, split]
      · rfl
      · exact notSlash

theorem pieces_plain {text : List Char} (plain : '/' ∉ text) : pieces text = [text] := by
  induction text with
  | nil => rfl
  | cons c rest ih =>
      rw [List.mem_cons, not_or] at plain
      rw [pieces, ih plain.2]
      exact fun slash => plain.1 slash.symm

theorem pieces_are_plain (text : List Char) : ∀ piece ∈ pieces text, '/' ∉ piece := by
  fun_induction pieces text with
  | case1 => simp
  | case2 rest ih => simpa using ih
  | case3 c rest _ empty => exact absurd empty (pieces_ne_nil rest)
  | case4 c rest notSlash first more split ih =>
      rw [split] at ih
      obtain ⟨inFirst, others⟩ := List.forall_mem_cons.mp ih
      refine List.forall_mem_cons.mpr ⟨?_, others⟩
      rw [List.mem_cons, not_or]
      exact ⟨fun slash => notSlash slash.symm, inFirst⟩

theorem pieces_joinPieces {all : List (List Char)} (something : all ≠ [])
    (plain : ∀ piece ∈ all, '/' ∉ piece) : pieces (joinPieces all) = all := by
  induction all with
  | nil => exact absurd rfl something
  | cons piece rest ih =>
      obtain ⟨first, others⟩ := List.forall_mem_cons.mp plain
      cases rest with
      | nil => simpa [joinPieces] using pieces_plain first
      | cons next rest =>
          have later := ih (List.cons_ne_nil _ _) others
          rw [joinPieces] at later ⊢
          rw [List.intercalate_cons_cons, List.append_assoc, List.singleton_append, pieces_slash, later,
            pieces_plain first]
          rfl

/-- What pieces stand for inside a path. -/
def named (all : List (List Char)) : List Component :=
  (all.filter (!isIdle ·)).map componentOf

theorem named_append (left right : List (List Char)) : named (left ++ right) = named left ++ named right := by
  simp [named]

theorem named_idle {piece : List Char} (idle : isIdle piece = true) (rest : List (List Char)) :
    named (piece :: rest) = named rest := by
  simp [named, idle]

theorem named_dropWhile (all : List (List Char)) : named (all.dropWhile isIdle) = named all := by
  induction all with
  | nil => rfl
  | cons piece rest ih =>
      cases idle : isIdle piece with
      | true => rw [List.dropWhile_cons_of_pos idle, ih, named_idle idle]
      | false => rw [List.dropWhile_cons_of_neg (by simp [idle])]

theorem named_reverse (all : List (List Char)) : named all.reverse = (named all).reverse := by
  simp [named, List.filter_reverse]

theorem named_dropIdleEnd (all : List (List Char)) : named (dropIdleEnd all) = named all := by
  rw [dropIdleEnd, named_reverse, named_dropWhile, named_reverse, List.reverse_reverse]

theorem dropIdleEnd_isPrefix (all : List (List Char)) : dropIdleEnd all <+: all := by
  have atEnd := List.reverse_prefix.mpr (List.dropWhile_suffix isIdle (l := all.reverse))
  rwa [List.reverse_reverse] at atEnd

theorem dropIdleEnd_cons {piece : List Char} (solid : isIdle piece = false) (rest : List (List Char)) :
    dropIdleEnd (piece :: rest) = piece :: dropIdleEnd rest := by
  have first : List.dropWhile isIdle [piece] = [piece] := List.dropWhile_cons_of_neg (by simp [solid])
  rw [dropIdleEnd, dropIdleEnd, List.reverse_cons, List.dropWhile_append, first]
  split
  next nothing =>
    rw [List.isEmpty_iff.mp nothing]
    rfl
  next => simp

theorem named_pieces_joinPieces {all : List (List Char)} (plain : ∀ piece ∈ all, '/' ∉ piece) :
    named (pieces (joinPieces all)) = named all := by
  by_cases nothing : all = []
  · subst nothing
    rfl
  · rw [pieces_joinPieces nothing plain]

/-- What a text of which some is read still names. -/
def Remainder.components (remainder : Remainder) : List Component :=
  match remainder.atStart, remainder.pieces with
  | true, [] :: second :: rest => .root :: named (second :: rest)
  | true, ['.'] :: rest => .current :: named rest
  | _, all => named all

/-- The pieces are those of a text. -/
def Remainder.Plain (remainder : Remainder) : Prop :=
  ∀ piece ∈ remainder.pieces, '/' ∉ piece

theorem components_eq (path : FilePath) : path.components = path.remainder.components := by
  unfold components Remainder.components remainder
  dsimp only
  split
  next second rest parts => rw [parts]; rfl
  next rest parts => rw [parts]; rfl
  next notRoot notCurrent =>
    split
    next second rest _ parts => exact absurd parts (notRoot second rest)
    next rest _ parts => exact absurd parts (notCurrent rest)
    next => rfl

theorem nextInside_some {all left : List (List Char)} {component : Component}
    (found : nextInside all = some (component, left)) :
    named all = component :: named left ∧ left <:+ all := by
  fun_induction nextInside all with
  | case1 => cases found
  | case2 piece rest idle ih =>
      obtain ⟨names, behind⟩ := ih found
      exact ⟨(named_idle idle rest).trans names, behind.trans (List.suffix_cons ..)⟩
  | case3 piece rest solid =>
      obtain ⟨rfl, rfl⟩ := Prod.mk.inj (Option.some.inj found)
      exact ⟨by simp [named, solid], List.suffix_cons ..⟩

theorem nextInside_none {all : List (List Char)} (nothing : nextInside all = none) : named all = [] := by
  fun_induction nextInside all with
  | case1 => rfl
  | case2 piece rest idle ih => exact (named_idle idle rest).trans (ih nothing)
  | case3 piece rest solid => cases nothing

namespace Remainder

variable {remainder left : Remainder}

theorem components_inside (inside : remainder.atStart = false) :
    remainder.components = named remainder.pieces := by
  simp [components, inside]

theorem components_other
    (notRoot : ∀ second rest, remainder.atStart = true → remainder.pieces = [] :: second :: rest → False)
    (notCurrent : ∀ rest, remainder.atStart = true → remainder.pieces = ['.'] :: rest → False) :
    remainder.components = named remainder.pieces := by
  unfold components
  split
  next second rest isStart parts => exact (notRoot second rest isStart parts).elim
  next rest isStart parts => exact (notCurrent rest isStart parts).elim
  next => rfl

/-- Reading a component leaves the others. -/
theorem next_some {component : Component} (found : remainder.next = some (component, left)) :
    remainder.components = component :: left.components ∧ left.atStart = false ∧
      left.pieces <:+ remainder.pieces := by
  unfold next at found
  split at found
  next second rest isStart parts =>
    obtain ⟨rfl, rfl⟩ := Prod.mk.inj (Option.some.inj found)
    refine ⟨?_, rfl, ?_⟩
    · rw [components, isStart, parts, components_inside rfl]
    · rw [parts]
      exact List.suffix_cons ..
  next rest isStart parts =>
    obtain ⟨rfl, rfl⟩ := Prod.mk.inj (Option.some.inj found)
    refine ⟨?_, rfl, ?_⟩
    · rw [components, isStart, parts, components_inside rfl]
      rfl
    · rw [parts]
      exact List.suffix_cons ..
  next notRoot notCurrent =>
    obtain ⟨⟨first, others⟩, isNext, same⟩ := Option.map_eq_some_iff.mp found
    obtain ⟨rfl, rfl⟩ := Prod.mk.inj same
    obtain ⟨names, behind⟩ := nextInside_some isNext
    exact ⟨(components_other notRoot notCurrent).trans names, rfl, behind⟩

theorem next_none (nothing : remainder.next = none) : remainder.components = [] := by
  unfold next at nothing
  split at nothing
  next => cases nothing
  next => cases nothing
  next notRoot notCurrent =>
    rw [components_other notRoot notCurrent]
    exact nextInside_none (Option.map_eq_none_iff.mp nothing)

/-- Reading a base off leaves the components behind it. -/
theorem after?_some {base : List Component} (found : remainder.after? base = some left) :
    remainder.components = base ++ left.components ∧ (base ≠ [] → left.atStart = false) ∧
      left.pieces <:+ remainder.pieces := by
  induction base generalizing remainder with
  | nil =>
      rw [after?, Option.some.injEq] at found
      subst found
      exact ⟨rfl, fun something => absurd rfl something, List.suffix_refl _⟩
  | cons component rest ih =>
      rw [after?] at found
      split at found
      next first others isNext =>
        split at found
        next same =>
          obtain ⟨names, inside, behind⟩ := next_some isNext
          obtain ⟨later, others, behind'⟩ := ih found
          refine ⟨?_, fun _ => ?_, behind'.trans behind⟩
          · rw [names, later, same, List.cons_append]
          · cases rest with
            | nil =>
                rw [after?, Option.some.injEq] at found
                rwa [← found]
            | cons => exact others (List.cons_ne_nil _ _)
        next => cases found
      next => cases found

theorem after?_none {base : List Component} (nothing : remainder.after? base = none) :
    ¬base <+: remainder.components := by
  induction base generalizing remainder with
  | nil => cases nothing
  | cons component rest ih =>
      rintro ⟨others, parts⟩
      rw [after?] at nothing
      cases isNext : remainder.next with
      | none =>
          rw [next_none isNext] at parts
          cases parts
      | some found =>
          obtain ⟨first, later⟩ := found
          obtain ⟨names, -, -⟩ := next_some isNext
          rw [names, List.cons_append] at parts
          obtain ⟨rfl, same⟩ := List.cons.inj parts
          rw [isNext] at nothing
          dsimp only at nothing
          rw [if_pos rfl] at nothing
          exact ih nothing ⟨others, same⟩

/-- Inside a path, what is kept of the pieces that are left. -/
def kept (remainder : Remainder) : List (List Char) :=
  dropIdleEnd (remainder.pieces.dropWhile isIdle)

theorem text_inside (inside : left.atStart = false) : left.text.toList = joinPieces left.kept := by
  simp [text, inside, kept]

theorem kept_plain (plain : left.Plain) : ∀ piece ∈ left.kept, '/' ∉ piece := fun piece member =>
  plain piece ((List.dropWhile_sublist _).subset ((dropIdleEnd_isPrefix _).subset member))

theorem named_text (inside : left.atStart = false) (plain : left.Plain) :
    named (FilePath.pieces left.text.toList) = left.components := by
  rw [components_inside inside, text_inside inside, named_pieces_joinPieces (kept_plain plain), kept,
    named_dropIdleEnd, named_dropWhile]

theorem text_not_absolute (inside : left.atStart = false) (plain : left.Plain) :
    FilePath.isAbsolute ⟨left.text⟩ = false := by
  rw [isAbsolute, text_inside inside, beq_eq_false_iff_ne]
  by_cases nothing : left.kept = []
  · simp [nothing, joinPieces]
  · intro absolute
    obtain ⟨rest, parts⟩ := List.head?_eq_some_iff.mp absolute
    have split : left.kept = [] :: FilePath.pieces rest := by
      rw [← pieces_joinPieces nothing (kept_plain plain), parts, FilePath.pieces]
    obtain ⟨others, front⟩ := dropIdleEnd_isPrefix (left.pieces.dropWhile isIdle)
    rw [← kept, split, List.cons_append] at front
    have solid := List.head?_dropWhile_not isIdle left.pieces
    rw [← front] at solid
    simp [isIdle] at solid

theorem components_solid {piece : List Char} (solid : isIdle piece = false) (rest : List (List Char)) :
    components ⟨true, piece :: rest⟩ = named (piece :: rest) := by
  refine components_other ?_ ?_
  · rintro second others - same
    obtain ⟨rfl, -⟩ := List.cons.inj same
    cases solid
  · rintro others - same
    obtain ⟨rfl, -⟩ := List.cons.inj same
    cases solid

theorem text_solid {piece : List Char} (solid : isIdle piece = false) (rest : List (List Char)) :
    (text ⟨true, piece :: rest⟩).toList = joinPieces (piece :: dropIdleEnd rest) := by
  rw [← dropIdleEnd_cons solid, text, String.toList_ofList]
  split
  next second others _ same =>
    obtain ⟨rfl, -⟩ := List.cons.inj same
    cases solid
  next others _ same =>
    obtain ⟨rfl, -⟩ := List.cons.inj same
    cases solid
  next => rfl
  next _ isStart => cases isStart

/-- From the beginning of a path, the text that is left names what is left. -/
theorem components_text (atStart : left.atStart = true) (plain : left.Plain) :
    FilePath.components ⟨left.text⟩ = left.components := by
  have front {all : List (List Char)} (inLeft : all ⊆ left.pieces) :
      ∀ piece ∈ dropIdleEnd all, '/' ∉ piece :=
    fun piece member => plain piece (inLeft ((dropIdleEnd_isPrefix _).subset member))
  obtain ⟨_, all⟩ := left
  obtain rfl : _ = true := atStart
  have eq : FilePath.components ⟨text ⟨true, all⟩⟩ =
      components ⟨true, FilePath.pieces (text ⟨true, all⟩).toList⟩ := components_eq _
  rw [eq]
  match all with
  | [] => rfl
  | [] :: [] => rfl
  | [] :: second :: rest =>
      have plain' := front (List.subset_cons_self [] (second :: rest))
      obtain ⟨first, others, behind⟩ := List.exists_cons_of_ne_nil
        (pieces_ne_nil (joinPieces (dropIdleEnd (second :: rest))))
      have names := named_pieces_joinPieces plain'
      rw [named_dropIdleEnd, behind] at names
      simp only [text, String.toList_ofList, FilePath.pieces, behind, components, names]
  | (c :: piece) :: rest =>
      have plain' : ∀ part ∈ (c :: piece) :: dropIdleEnd rest, '/' ∉ part :=
        List.forall_mem_cons.mpr ⟨plain _ List.mem_cons_self, front (List.subset_cons_self ..)⟩
      by_cases current : c :: piece = ['.']
      · obtain ⟨rfl, rfl⟩ := List.cons.inj current
        simp only [text, String.toList_ofList]
        rw [pieces_joinPieces (List.cons_ne_nil _ _) plain', components, components]
        simp only [named_dropIdleEnd]
      · have solid : isIdle (c :: piece) = false := by simpa [isIdle] using current
        rw [text_solid solid, pieces_joinPieces (List.cons_ne_nil _ _) plain', components_solid solid,
          components_solid solid, ← dropIdleEnd_cons solid, named_dropIdleEnd]

theorem components_root {rest : List (List Char)} (something : rest ≠ []) :
    components ⟨true, [] :: rest⟩ = .root :: named rest := by
  obtain ⟨second, others, rfl⟩ := List.exists_cons_of_ne_nil something
  rfl

theorem components_append {front more : List (List Char)} (isFront : front ≠ []) (isMore : more ≠ []) :
    components ⟨true, front ++ more⟩ = components ⟨true, front ++ [[]]⟩ ++ named more := by
  have idle : named [[]] = [] := rfl
  match front with
  | [] => exact absurd rfl isFront
  | [] :: rest =>
      have behind : rest ++ more ≠ [] := by simp [isMore]
      rw [List.cons_append, components_root behind, List.cons_append, components_root (by simp)]
      simp [named_append, idle]
  | (c :: piece) :: rest =>
      by_cases current : c :: piece = ['.']
      · obtain ⟨rfl, rfl⟩ := List.cons.inj current
        simp [components, named_append, idle]
      · have solid : isIdle (c :: piece) = false := by simpa [isIdle] using current
        rw [List.cons_append, components_solid solid, List.cons_append, components_solid solid,
          ← List.cons_append, ← List.cons_append]
        simp only [named_append, idle, List.append_nil]

theorem components_append_empty {front : List (List Char)} (isFront : front ≠ []) (something : front ≠ [[]]) :
    components ⟨true, front ++ [[]]⟩ = components ⟨true, front⟩ := by
  have idle : named [[]] = [] := rfl
  match front with
  | [] => exact absurd rfl isFront
  | [] :: [] => exact absurd rfl something
  | [] :: second :: rest =>
      rw [List.cons_append, components_root (by simp), components_root (by simp), named_append, idle,
        List.append_nil]
  | (c :: piece) :: rest =>
      by_cases current : c :: piece = ['.']
      · obtain ⟨rfl, rfl⟩ := List.cons.inj current
        simp [components, named_append, idle]
      · have solid : isIdle (c :: piece) = false := by simpa [isIdle] using current
        rw [List.cons_append, components_solid solid, components_solid solid, ← List.cons_append, named_append,
          idle, List.append_nil]

end Remainder

theorem remainder_plain (path : FilePath) : path.remainder.Plain :=
  pieces_are_plain path.text.toList

section Joined

variable {base path : FilePath}

/-- A path read from inside a base has the components of the base, and then its own. -/
theorem components_join (relative : path.isAbsolute = false) (something : base.text ≠ "") :
    (base.join path).components = base.components ++ named (pieces path.text.toList) := by
  have isBase : base.text.toList ≠ [] := fun nothing => something (String.toList_eq_nil_iff.mp nothing)
  rw [join, if_neg (by simp [relative]), List.getLast?_eq_some_getLast isBase]
  dsimp only
  rw [components_eq, components_eq, remainder, remainder]
  split
  next slash =>
    have parts : base.text.toList = base.text.toList.dropLast ++ ['/'] := by
      rw [← slash, List.dropLast_concat_getLast]
    rw [String.toList_append, parts, List.append_assoc, List.singleton_append, pieces_slash, pieces_slash]
    exact Remainder.components_append (pieces_ne_nil _) (pieces_ne_nil _)
  next =>
    have solid : pieces base.text.toList ≠ [[]] := by
      intro empty
      have text := joinPieces_pieces base.text.toList
      rw [empty] at text
      exact isBase text.symm
    have parts : (base.text ++ "/" ++ path.text).toList = base.text.toList ++ '/' :: path.text.toList := by
      simp
    rw [parts, pieces_slash, Remainder.components_append (pieces_ne_nil _) (pieces_ne_nil _),
      Remainder.components_append_empty (pieces_ne_nil _) solid]

/-- A path read from inside a base leads out of it only if it is absolute. -/
theorem isAbsolute_of_after?_none (outside : (base.join path).remainder.after? base.components = none) :
    (base.join path).isAbsolute = true := by
  cases absolute : path.isAbsolute with
  | true => rwa [join, if_pos absolute]
  | false =>
      by_cases nothing : base.text = ""
      · have none : base.components = [] := by
          rw [components, nothing]
          rfl
        rw [none] at outside
        cases outside
      · refine absurd ?_ (Remainder.after?_none outside)
        rw [← components_eq, components_join absolute nothing]
        exact List.prefix_append ..

/-- What is seen of a path inside a base is no path outside it. -/
theorem text_ne_of_outside {inner : FilePath} {left : Remainder}
    (inside : inner.remainder.after? base.components = some left)
    (outside : (base.join path).remainder.after? base.components = none) :
    left.text ≠ (base.join path).text := by
  intro same
  have something : base.components ≠ [] := by
    intro nothing
    rw [nothing] at outside
    cases outside
  obtain ⟨-, isInside, behind⟩ := Remainder.after?_some inside
  have plain : left.Plain := fun piece member => remainder_plain inner piece (behind.subset member)
  have relative := Remainder.text_not_absolute (isInside something) plain
  have absolute := isAbsolute_of_after?_none outside
  rw [same] at relative
  exact absurd absolute (by simp [relative])

/-- The components behind a base are those of the text that is left. -/
theorem components_of_after? {left right : FilePath} {fromLeft fromRight : Remainder}
    (insideLeft : left.remainder.after? base.components = some fromLeft)
    (insideRight : right.remainder.after? base.components = some fromRight)
    (same : fromLeft.text = fromRight.text) : left.components = right.components := by
  obtain ⟨parts, isInside, behind⟩ := Remainder.after?_some insideLeft
  obtain ⟨parts', isInside', behind'⟩ := Remainder.after?_some insideRight
  have plain : fromLeft.Plain := fun piece member => remainder_plain left piece (behind.subset member)
  have plain' : fromRight.Plain := fun piece member => remainder_plain right piece (behind'.subset member)
  rw [components_eq, components_eq, parts, parts']
  congr 1
  by_cases nothing : base.components = []
  · rw [nothing, Remainder.after?, Option.some.injEq] at insideLeft insideRight
    subst insideLeft insideRight
    rw [← Remainder.components_text rfl plain, ← Remainder.components_text rfl plain', same]
  · rw [← Remainder.named_text (isInside nothing) plain, ← Remainder.named_text (isInside' nothing) plain',
      same]

/-- Paths read from inside one root that look the same from there name the same entry. -/
theorem sameEntry_of_relativeTo {root left right : FilePath}
    (same : (root.join left).relativeTo root = (root.join right).relativeTo root) :
    (root.join left).SameEntry (root.join right) := by
  unfold SameEntry
  rw [relativeTo, relativeTo] at same
  cases insideLeft : (root.join left).remainder.after? root.components with
  | none =>
      cases insideRight : (root.join right).remainder.after? root.components with
      | none =>
          rw [insideLeft, insideRight] at same
          rw [components, components, show (root.join left).text = (root.join right).text from same]
      | some fromRight =>
          rw [insideLeft, insideRight] at same
          exact absurd same.symm (text_ne_of_outside insideRight insideLeft)
  | some fromLeft =>
      cases insideRight : (root.join right).remainder.after? root.components with
      | none =>
          rw [insideLeft, insideRight] at same
          exact absurd same (text_ne_of_outside insideLeft insideRight)
      | some fromRight =>
          rw [insideLeft, insideRight] at same
          exact components_of_after? insideLeft insideRight same

end Joined

end FilePath

end Requalify
