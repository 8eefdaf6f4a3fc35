import Requalify.Proofs.Token.Chunk

/-!
How far the pieces of a text reach that have no fixed length. A comment, a directive, a literal and a
number are scanned character by character with at most one character of lookahead, so what stands behind
them matters only through the character where the scan stops and the one after it.
-/

namespace Requalify

namespace Piece

theorem length_takeWhile_append {keeps : Char → Bool} {front after : List Char} :
    ((front ++ after).takeWhile keeps).length = front.length ↔
      (∀ c ∈ front, keeps c = true) ∧ after.head?.any keeps = false := by
  induction front with
  | nil =>
      cases after with
      | nil => simp
      | cons c after => cases kept : keeps c <;> simp [kept]
  | cons c front ih =>
      cases kept : keeps c with
      | false => simp [kept]
      | true => simp [kept, ih]

theorem nameLength_append {name after : List Char} :
    nameLength (name ++ after) = name.length ↔
      (∀ c ∈ name, isNamePart c = true) ∧ after.head?.any isNamePart = false :=
  length_takeWhile_append

/-- What becomes of a character in front of the next one: the scan stops, or it goes on in a new state,
behind the next character if that is taken too. -/
abbrev Scan (σ : Type) := σ → Char → Option Char → Option (σ × Bool)

namespace Scan

variable {σ : Type} (scan : Scan σ)

def length (state : σ) (count : Nat) : List Char → Nat
  | [] => count
  | c :: rest =>
      match scan state c rest.head? with
      | none => count
      | some (next, both) => length next (count + 1 + both.toNat) (rest.drop both.toNat)
termination_by text => text.length
decreasing_by simp only [List.length_drop, List.length_cons]; omega

def Stops (state : σ) : List Char → Prop
  | [] => True
  | c :: rest => scan state c rest.head? = none

theorem le_length (state : σ) (count : Nat) (text : List Char) :
    count ≤ scan.length state count text := by
  fun_induction length scan state count text with
  | case1 => exact Nat.le_refl _
  | case2 => exact Nat.le_refl _
  | case3 state count c rest next both step ih => omega

theorem length_eq_self {state : σ} {count : Nat} {text : List Char} :
    scan.length state count text = count ↔ scan.Stops state text := by
  cases text with
  | nil => simp [length, Stops]
  | cons c rest =>
      rw [length, Stops]
      cases step : scan state c rest.head? with
      | none => simp
      | some result =>
          obtain ⟨next, both⟩ := result
          have grows := scan.le_length next (count + 1 + both.toNat) (rest.drop both.toNat)
          simp only [reduceCtorEq, iff_false]
          omega

/-- How a scan that has taken all of `body` in front of `after` has come to its last state. -/
def EndsIn (initial final : σ) (body after : List Char) : Prop :=
  match body.getLast? with
  | none => final = initial
  | some c =>
      (∃ state, scan state c after.head? = some (final, false)) ∨
        ∃ state before, scan state before (some c) = some (final, true)

theorem endsIn_cons {state next final : σ} {c : Char} {rest after : List Char} {both : Bool}
    (step : scan state c (rest ++ after).head? = some (next, both)) (short : both.toNat ≤ rest.length)
    (ends : scan.EndsIn next final (rest.drop both.toNat) after) :
    scan.EndsIn state final (c :: rest) after := by
  cases both with
  | false =>
      cases rest with
      | nil =>
          obtain rfl : final = next := ends
          exact .inl ⟨state, step⟩
      | cons d rest => exact ends
  | true =>
      match rest, short with
      | [d], _ =>
          obtain rfl : final = next := ends
          exact .inr ⟨state, c, step⟩
      | _ :: d :: rest, _ => exact ends

/-- A scan that stops behind `body` does so in front of any other text where its last state stops, unless
the last character of the body is taken for something else there. -/
theorem length_append {after body : List Char} {state : σ} {count : Nat}
    (fits : scan.length state count (body ++ after) = count + body.length) :
    ∃ final, scan.Stops final after ∧ scan.EndsIn state final body after ∧
      ∀ after', scan.Stops final after' →
        (∀ state c, scan state c after.head? = some (final, false) →
          scan state c after'.head? = some (final, false)) →
        scan.length state count (body ++ after') = count + body.length := by
  -- A step may take two characters, so the induction is on the length of the body.
  generalize sizeEq : body.length = size
  induction size using Nat.strongRecOn generalizing body state count with
  | ind size ih =>
      subst sizeEq
      cases body with
      | nil =>
          simp only [List.nil_append, List.length_nil, Nat.add_zero, length_eq_self] at fits ⊢
          exact ⟨state, fits, rfl, fun _ stops _ => stops⟩
      | cons c rest =>
          rw [List.cons_append, length] at fits
          cases step : scan state c (rest ++ after).head? with
          | none =>
              simp only [step, List.length_cons] at fits
              omega
          | some result =>
              obtain ⟨next, both⟩ := result
              simp only [step, List.length_cons] at fits
              have grows := scan.le_length next (count + 1 + both.toNat)
                ((rest ++ after).drop both.toNat)
              have short : both.toNat ≤ rest.length := by omega
              have size : (rest.drop both.toNat).length = rest.length - both.toNat :=
                List.length_drop
              rw [List.drop_append_of_le_length short] at fits
              have fits' : scan.length next (count + 1 + both.toNat)
                  (rest.drop both.toNat ++ after) =
                  count + 1 + both.toNat + (rest.drop both.toNat).length := by omega
              obtain ⟨final, stops, ends, moves⟩ := ih (rest.drop both.toNat).length
                (by rw [size, List.length_cons]; omega) fits' rfl
              refine ⟨final, stops, scan.endsIn_cons step short ends, ?_⟩
              intro after' stops' agrees
              have lookahead : scan state c (rest ++ after').head? = some (next, both) := by
                cases rest with
                | cons d rest => exact step
                | nil =>
                    obtain rfl : both = false := by simpa using short
                    obtain rfl : final = next := ends
                    exact agrees state c step
              have goesOn := moves after' stops' agrees
              simp only [List.cons_append, length, lookahead, List.length_cons]
              rw [List.drop_append_of_le_length short]
              omega

end Scan

theorem not_pair {c first second : Char} {rest : List Char}
    (apart : ∀ others, c = first → rest = second :: others → False) :
    ¬(c = first ∧ rest.head? = some second) := by
  rintro ⟨isFirst, isSecond⟩
  obtain ⟨others, parts⟩ := List.head?_eq_some_iff.mp isSecond
  exact apart others isFirst parts

def commentScan : Scan Bool := fun inside c next =>
  if inside = false then none
  else if c = '*' ∧ next = some '/' then some (false, true)
  else some (true, false)

theorem commentScan_stops (text : List Char) : commentScan.Stops false text := by
  cases text with
  | nil => trivial
  | cons c rest => rfl

theorem commentLength_eq_scan (count : Nat) (text : List Char) :
    commentLength count text = commentScan.length true count text := by
  fun_induction commentLength count text with
  | case1 count rest =>
      have closed : commentScan.length false (count + 2) rest = count + 2 :=
        commentScan.length_eq_self.mpr (commentScan_stops rest)
      simpa [Scan.length, commentScan] using closed.symm
  | case2 count c rest inside ih =>
      simp [Scan.length, commentScan, not_pair inside, ih]
  | case3 count => simp [Scan.length]

/-- A comment that ends in front of a text is closed. -/
theorem commentLength_append {count : Nat} {body after : List Char}
    (fits : commentLength count (body ++ after) = count + body.length) (more : after ≠ []) :
    body.getLast? = some '/' ∧
      ∀ after', commentLength count (body ++ after') = count + body.length := by
  simp only [commentLength_eq_scan] at fits ⊢
  obtain ⟨final, stops, ends, moves⟩ := commentScan.length_append fits
  have closed : final = false := by
    cases final with
    | false => rfl
    | true =>
        obtain ⟨c, rest, rfl⟩ := List.exists_cons_of_ne_nil more
        simp only [Scan.Stops, commentScan, Bool.true_eq_false, if_false] at stops
        split at stops <;> simp at stops
  subst closed
  refine ⟨?_, fun after' => moves after' ?_ ?_⟩
  · unfold Scan.EndsIn at ends
    split at ends
    next => simp at ends
    next c last =>
      rcases ends with ⟨state, step⟩ | ⟨state, before, step⟩
      · simp only [commentScan] at step
        grind
      · simp only [commentScan] at step
        grind
  · exact commentScan_stops after'
  · intro state c step
    simp only [commentScan] at step
    grind

def directiveScan : Scan DirectiveState := fun state c next =>
  match state with
  | .blockComment =>
      if c = '*' ∧ next = some '/' then some (.code false, true) else some (.blockComment, false)
  | .code escaped =>
      if c = '/' ∧ next = some '*' then some (.blockComment, true)
      else if c = '/' ∧ next = some '/' then some (.lineComment false, true)
      else if c = '\n' then if escaped then some (.code false, false) else none
      else some (.code (stillEscaped escaped c), false)
  | .lineComment escaped =>
      if c = '\n' then if escaped then some (.code false, false) else none
      else some (.lineComment (stillEscaped escaped c), false)

theorem directiveLength_eq_scan (state : DirectiveState) (count : Nat) (text : List Char) :
    directiveLength state count text = directiveScan.length state count text := by
  fun_induction directiveLength state count text with
  | case3 count c rest inside ih =>
      simp [Scan.length, directiveScan, not_pair inside, ih]
  | case10 escaped count c rest notBlock notLine notFeed ih =>
      have feed : c ≠ '\n' := notFeed
      simp [Scan.length, directiveScan, not_pair notBlock, not_pair notLine, feed, ih]
  | _ => simp_all [Scan.length, directiveScan]

theorem directiveScan_eq_none {state : DirectiveState} {c : Char} {next : Option Char} :
    directiveScan state c next = none ↔
      c = '\n' ∧ (state = .code false ∨ state = .lineComment false) := by
  cases state with
  | blockComment =>
      simp only [directiveScan]
      split <;> simp
  | code escaped =>
      by_cases feed : c = '\n'
      · cases escaped <;> simp [directiveScan, feed]
      · simp only [directiveScan, feed, if_false, false_and, iff_false]
        split
        next => simp
        next =>
          split
          next => simp
          next => simp
  | lineComment escaped =>
      by_cases feed : c = '\n'
      · cases escaped <;> simp [directiveScan, feed]
      · simp [directiveScan, feed]

/-- A directive ends in front of a line feed or with the text. -/
theorem directiveLength_append {state : DirectiveState} {count : Nat} {body after : List Char}
    (fits : directiveLength state count (body ++ after) = count + body.length) :
    (after = [] ∨ after.head? = some '\n') ∧
      ∀ after', after'.head? = after.head? →
        directiveLength state count (body ++ after') = count + body.length := by
  simp only [directiveLength_eq_scan] at fits ⊢
  obtain ⟨final, stops, -, moves⟩ := directiveScan.length_append fits
  refine ⟨?_, fun after' same => moves after' ?_ (by simp [same])⟩
  · cases after with
    | nil => exact .inl rfl
    | cons c rest => exact .inr (congrArg some (directiveScan_eq_none.mp stops).1)
  · cases after' with
    | nil => trivial
    | cons c rest =>
        obtain ⟨others, rfl⟩ := List.head?_eq_some_iff.mp same.symm
        exact directiveScan_eq_none.mpr (directiveScan_eq_none.mp stops)

def quotedScan (mark : Char) : Scan Bool := fun inside c next =>
  if inside = false then none
  else if c = '\\' ∧ next.isSome = true then some (true, true)
  else if c = '\n' then none
  else if c = mark then some (false, false)
  else some (true, false)

theorem quotedScan_stops (mark : Char) (text : List Char) : (quotedScan mark).Stops false text := by
  cases text with
  | nil => trivial
  | cons c rest => rfl

theorem quotedLength_eq_scan (mark : Char) (count : Nat) (text : List Char) :
    quotedLength mark count text = (quotedScan mark).length true count text := by
  have noEscape {c : Char} {rest : List Char}
      (plain : ∀ next others, c = '\\' → rest = next :: others → False) :
      ¬(c = '\\' ∧ ¬rest = []) := by
    rintro ⟨backslash, something⟩
    obtain ⟨next, others, rfl⟩ := List.exists_cons_of_ne_nil something
    exact plain next others backslash rfl
  fun_induction quotedLength mark count text with
  | case1 count => simp [Scan.length]
  | case2 count c rest ih => simp [Scan.length, quotedScan, ih]
  | case3 count rest plain => simp [Scan.length, quotedScan]
  | case4 count rest plain notFeed =>
      have closed : (quotedScan mark).length false (count + 1) rest = count + 1 :=
        (quotedScan mark).length_eq_self.mpr (quotedScan_stops mark rest)
      simp [Scan.length, quotedScan, noEscape plain, notFeed, closed]
  | case5 count c rest plain notFeed notMark ih =>
      simp [Scan.length, quotedScan, noEscape plain, notFeed, notMark, ih]

theorem quotedScan_eq_close {mark c : Char} {state : Bool} {next : Option Char}
    (step : quotedScan mark state c next = some (false, false)) :
    state = true ∧ c = mark ∧ c ≠ '\n' ∧ ¬(c = '\\' ∧ next.isSome = true) := by
  simp only [quotedScan] at step
  grind

/-- How the body of a literal, whose length `length` measures, ends in front of a text that goes on: in
front of a line feed, or with its mark. -/
def Closes (length : List Char → Nat) (mark : Char) (body after : List Char) : Prop :=
  (after.head? = some '\n' ∧ ∀ after', after'.head? = some '\n' → ('(' ∈ after' → '(' ∈ after) →
    length (body ++ after') = body.length) ∨
  (body.getLast? = some mark ∧ ∀ after', ('(' ∈ after' → '(' ∈ after) →
    length (body ++ after') = body.length)

theorem quotedLength_closes {mark : Char} (solid : mark ≠ '\\') {body after : List Char}
    (fits : quotedLength mark 0 (body ++ after) = body.length) :
    after = [] ∨ Closes (quotedLength mark 0) mark body after := by
  have fits' : (quotedScan mark).length true 0 (body ++ after) = 0 + body.length := by
    rw [← quotedLength_eq_scan, fits, Nat.zero_add]
  obtain ⟨final, stops, ends, moves⟩ := (quotedScan mark).length_append fits'
  simp only [← quotedLength_eq_scan, Nat.zero_add] at moves
  cases final with
  | true =>
      cases after with
      | nil => exact .inl rfl
      | cons c rest =>
          have feed : c = '\n' := by
            simp only [Scan.Stops, quotedScan] at stops
            grind
          subst feed
          refine .inr (.inl ⟨rfl, fun after' same _ => moves after' ?_ (by simp [same])⟩)
          obtain ⟨others, rfl⟩ := List.head?_eq_some_iff.mp same
          simp [Scan.Stops, quotedScan]
  | false =>
      refine .inr (.inr ⟨?_, fun after' _ => moves after' (quotedScan_stops mark after') ?_⟩)
      · unfold Scan.EndsIn at ends
        split at ends
        next => simp at ends
        next c last =>
          rcases ends with ⟨state, step⟩ | ⟨state, before, step⟩
          · rw [last, (quotedScan_eq_close step).2.1]
          · simp only [quotedScan] at step
            grind
      · intro state c step
        obtain ⟨rfl, rfl, notFeed, -⟩ := quotedScan_eq_close step
        simp [quotedScan, solid, notFeed]

theorem le_lengthThrough (ending : List Char) (count : Nat) (text : List Char) :
    count ≤ lengthThrough ending count text := by
  fun_induction lengthThrough ending count text
  all_goals omega

theorem lengthThrough_append {ending body after : List Char} {count : Nat} (long : ending ≠ [])
    (fits : lengthThrough ending count (body ++ after) = count + body.length) (more : after ≠ []) :
    ending <:+ body ∧
      ∀ after', lengthThrough ending count (body ++ after') = count + body.length := by
  have positive : 0 < ending.length := List.length_pos_iff.mpr long
  induction body generalizing count with
  | nil =>
      obtain ⟨c, rest, rfl⟩ := List.exists_cons_of_ne_nil more
      have grows := le_lengthThrough ending (count + 1) rest
      simp only [List.nil_append, lengthThrough, List.length_nil] at fits
      split at fits <;> omega
  | cons c rest ih =>
      simp only [List.cons_append, lengthThrough, List.length_cons, List.isPrefixOf_iff_prefix] at fits ⊢
      by_cases here : ending <+: c :: (rest ++ after)
      · rw [if_pos here] at fits
        have size : ending.length = (c :: rest).length := by
          rw [List.length_cons]
          omega
        have begins : ending <+: c :: rest :=
          List.prefix_of_prefix_length_le here (List.prefix_append (c :: rest) after)
            (Nat.le_of_eq size)
        obtain rfl := begins.eq_of_length size
        refine ⟨List.suffix_refl _, fun after' => ?_⟩
        have again : c :: rest <+: c :: (rest ++ after') := List.prefix_append (c :: rest) after'
        rw [if_pos again, List.length_cons]
      · rw [if_neg here] at fits
        have fits' : lengthThrough ending (count + 1) (rest ++ after) = count + 1 + rest.length := by
          omega
        obtain ⟨ends, moves⟩ := ih fits'
        refine ⟨ends.trans (List.suffix_cons c rest), fun after' => ?_⟩
        have notHere : ¬ending <+: c :: (rest ++ after') := by
          intro begins
          have within := List.prefix_of_prefix_length_le begins
            (List.prefix_append (c :: rest) after') (Nat.le_succ_of_le ends.length_le)
          exact here (within.trans (List.prefix_append (c :: rest) after))
        rw [if_neg notHere, moves after']
        omega

theorem rawLength_of_not_mem {text : List Char} (plain : '(' ∉ text) :
    rawLength text = quotedLength '"' 0 text := by
  have whole : text.takeWhile (· != '(') = text := by
    rw [← List.append_nil text, List.takeWhile_append_of_pos]
    · simp
    · intro c member
      simpa using fun same : c = '(' => plain (same ▸ member)
  simp [rawLength, whole]

theorem rawLength_of_parts {delimiter body : List Char} (plain : '(' ∉ delimiter) :
    rawLength (delimiter ++ '(' :: body) =
      lengthThrough (')' :: delimiter ++ ['"']) (delimiter.length + 1) body := by
  have front : (delimiter ++ '(' :: body).takeWhile (· != '(') = delimiter := by
    rw [List.takeWhile_append_of_pos]
    · simp
    · intro c member
      simpa using fun same : c = '(' => plain (same ▸ member)
  simp [rawLength, front]

/-- Without a parenthesis in the text behind it, a raw literal is a plain one. -/
theorem rawLength_closes {body after : List Char} (fits : rawLength (body ++ after) = body.length) :
    after = [] ∨ Closes rawLength '"' body after := by
  by_cases raw : '(' ∈ body ++ after
  · obtain ⟨delimiter, content, parts, plain⟩ := List.eq_append_cons_of_mem raw
    rw [parts, rawLength_of_parts plain] at fits
    have grows := le_lengthThrough (')' :: delimiter ++ ['"']) (delimiter.length + 1) content
    obtain ⟨inner, rfl, rfl⟩ : ∃ inner, body = delimiter ++ '(' :: inner ∧ content = inner ++ after := by
      rcases List.append_eq_append_iff.mp parts with ⟨more, longer, -⟩ | ⟨more, longer, rest⟩
      · have size := congrArg List.length longer
        simp only [List.length_append] at size
        omega
      · cases more with
        | nil =>
            simp only [List.append_nil] at longer
            rw [longer] at fits
            omega
        | cons c more =>
            obtain ⟨rfl, rfl⟩ := List.cons.inj rest
            exact ⟨more, longer, rfl⟩
    by_cases atEnd : after = []
    · exact .inl atEnd
    · simp only [List.length_append, List.length_cons] at fits
      have fits' : lengthThrough (')' :: delimiter ++ ['"']) (delimiter.length + 1) (inner ++ after) =
          delimiter.length + 1 + inner.length := fits.trans (by omega)
      obtain ⟨⟨front, rfl⟩, moves⟩ := lengthThrough_append (by simp) fits' atEnd
      refine .inr (.inr ⟨?_, fun after' _ => ?_⟩)
      · have shape : delimiter ++ '(' :: (front ++ (')' :: delimiter ++ ['"'])) =
            (delimiter ++ '(' :: (front ++ ')' :: delimiter)) ++ ['"'] := by simp
        rw [shape, List.getLast?_concat]
      · rw [List.append_assoc, List.cons_append, rawLength_of_parts plain, moves after']
        simp only [List.length_append, List.length_cons]
        omega
  · have plain {after' : List Char} (fewer : '(' ∈ after' → '(' ∈ after) : '(' ∉ body ++ after' := by
      simp only [List.mem_append, not_or] at raw ⊢
      exact ⟨raw.1, fun member => raw.2 (fewer member)⟩
    rw [rawLength_of_not_mem raw] at fits
    rcases quotedLength_closes (by decide) fits with atEnd | ⟨feed, moves⟩ | ⟨closes, moves⟩
    · exact .inl atEnd
    · refine .inr (.inl ⟨feed, fun after' same fewer => ?_⟩)
      rw [rawLength_of_not_mem (plain fewer), moves after' same fewer]
    · refine .inr (.inr ⟨closes, fun after' fewer => ?_⟩)
      rw [rawLength_of_not_mem (plain fewer), moves after' fewer]

/-- The body of a literal ends with its suffix. -/
theorem withSuffix_parts {length : List Char → Nat} {body after : List Char}
    (fits : withSuffix (length (body ++ after)) (body ++ after) = body.length) :
    ∃ front suffix, body = front ++ suffix ∧ length (front ++ (suffix ++ after)) = front.length ∧
      (∀ c ∈ suffix, isNamePart c = true) ∧ after.head?.any isNamePart = false := by
  rw [withSuffix] at fits
  obtain ⟨front, suffix, rfl, size⟩ : ∃ front suffix, body = front ++ suffix ∧
      length (body ++ after) = front.length := by
    refine ⟨_, _, (List.take_append_drop (length (body ++ after)) body).symm, ?_⟩
    rw [List.length_take]
    omega
  simp only [List.append_assoc] at fits size
  rw [size, List.drop_left, List.length_append] at fits
  obtain ⟨parts, apart⟩ := nameLength_append.mp (show nameLength (suffix ++ after) = suffix.length by omega)
  exact ⟨front, suffix, rfl, size, parts, apart⟩

/-- The body of a literal with the suffix behind it. -/
theorem withSuffix_append {length : List Char → Nat} {mark : Char} {body after : List Char}
    (closes : ∀ body after, length (body ++ after) = body.length →
      after = [] ∨ Closes length mark body after)
    (fits : withSuffix (length (body ++ after)) (body ++ after) = body.length) :
    after = [] ∨
      (after.head? = some '\n' ∧ ∀ after', after'.head? = some '\n' → ('(' ∈ after' → '(' ∈ after) →
        withSuffix (length (body ++ after')) (body ++ after') = body.length) ∨
      (∃ c, body.getLast? = some c ∧ (c = mark ∨ isNamePart c = true)) ∧
        after.head?.any isNamePart = false ∧
        ∀ after', after'.head?.any isNamePart = false → ('(' ∈ after' → '(' ∈ after) →
          withSuffix (length (body ++ after')) (body ++ after') = body.length := by
  obtain ⟨front, suffix, rfl, size, parts, apart⟩ := withSuffix_parts fits
  simp only [List.append_assoc]
  have moves {after' : List Char} (apart' : after'.head?.any isNamePart = false)
      (fits' : length (front ++ (suffix ++ after')) = front.length) :
      withSuffix (length (front ++ (suffix ++ after'))) (front ++ (suffix ++ after')) =
        (front ++ suffix).length := by
    rw [withSuffix, fits', List.drop_left, nameLength_append.mpr ⟨parts, apart'⟩, List.length_append]
  have fewer {after' : List Char} (mono : '(' ∈ after' → '(' ∈ after) :
      '(' ∈ suffix ++ after' → '(' ∈ suffix ++ after := by
    simp only [List.mem_append]
    exact Or.imp_right mono
  rcases closes front (suffix ++ after) size with atEnd | ⟨feed, stays⟩ | ⟨ends, stays⟩
  · exact .inl (List.append_eq_nil_iff.mp atEnd).2
  · cases suffix with
    | nil =>
        refine .inr (.inl ⟨feed, fun after' same mono => moves ?_ (stays after' same mono)⟩)
        rw [same]
        rfl
    | cons c suffix =>
        have isFeed : c = '\n' := by simpa using feed
        exact absurd (parts c (by simp)) (by rw [isFeed]; decide)
  · refine .inr (.inr ⟨?_, apart, fun after' apart' mono =>
      moves apart' (stays (suffix ++ after') (fewer mono))⟩)
    cases last : suffix.getLast? with
    | none =>
        obtain rfl := List.getLast?_eq_none_iff.mp last
        exact ⟨mark, by simpa using ends, .inl rfl⟩
    | some c => exact ⟨c, by simp [last], .inr (parts c (List.mem_of_getLast? last))⟩

/-- The character can go on a name or number, or make a literal of a name in front of it. -/
def joinsWord (c : Char) : Bool :=
  isNamePart c || c == '"' || c == '\'' || c == '.' || c == '+' || c == '-'

/-- A word in front of `after` is the same word in front of `after'`. -/
def SameBreak (after after' : List Char) : Prop :=
  (after'.head? = after.head? ∧ (after.head? = some '\'' →
    after'.tail.head?.any Char.isAlphanum = after.tail.head?.any Char.isAlphanum)) ∨
  after'.head?.any joinsWord = false

def goesOnNumber (previous c : Char) (next : Option Char) : Bool :=
  isNamePart c || c == '.' ||
    ((c == '+' || c == '-') &&
      (previous == 'e' || previous == 'E' || previous == 'p' || previous == 'P')) ||
    (c == '\'' && next.any Char.isAlphanum)

def numberScan : Scan Char := fun previous c next =>
  if goesOnNumber previous c next = true then some (c, false) else none

theorem numberLength_eq_scan (previous : Char) (count : Nat) (text : List Char) :
    numberLength previous count text = numberScan.length previous count text := by
  fun_induction numberLength previous count text with
  | case1 previous count => simp [Scan.length]
  | case2 previous count c rest sign separates goesOn ih =>
      have step : numberScan previous c rest.head? = some (c, false) := if_pos goesOn
      simp [Scan.length, step, ih]
  | case3 previous count c rest sign separates stops =>
      have step : numberScan previous c rest.head? = none := if_neg stops
      simp [Scan.length, step]

theorem nonblank_of_joinsWord {c : Char} (joins : joinsWord c = true) :
    Text.isAsciiBlank c = false := by
  cases blank : Text.isAsciiBlank c with
  | false => rfl
  | true =>
      simp only [Text.isAsciiBlank, Bool.or_eq_true, beq_iff_eq] at blank
      rcases blank with (((rfl | rfl) | rfl) | rfl) | rfl
      all_goals exact absurd joins (by decide)

theorem joinsWord_of_goesOn {previous c : Char} {next : Option Char}
    (goesOn : goesOnNumber previous c next = true) : joinsWord c = true := by
  simp only [goesOnNumber, joinsWord, Bool.or_eq_true, Bool.and_eq_true] at goesOn ⊢
  grind

theorem joinsWord_of_namePart {c : Char} (part : isNamePart c = true) : joinsWord c = true := by
  simp [joinsWord, part]

theorem SameBreak.apart {after after' : List Char} (same : SameBreak after after')
    (apart : after.head?.any isNamePart = false) : after'.head?.any isNamePart = false := by
  rcases same with ⟨same, -⟩ | other
  · rw [same]
    exact apart
  · cases after' with
    | nil => rfl
    | cons c rest =>
        simp only [List.head?_cons, Option.any_some] at other ⊢
        exact Bool.eq_false_iff.mpr fun part =>
          Bool.eq_false_iff.mp other (joinsWord_of_namePart part)

theorem SameBreak.goesOn {after' : List Char} {state c : Char} {rest' : List Char}
    {after : List Char} (same : SameBreak after after') (parts : after' = c :: rest')
    (goesOn : goesOnNumber state c rest'.head? = true) :
    ∃ rest, after = c :: rest ∧ goesOnNumber state c rest.head? = true := by
  subst parts
  rcases same with ⟨same, second⟩ | other
  · obtain ⟨rest, rfl⟩ := List.head?_eq_some_iff.mp same.symm
    refine ⟨rest, rfl, ?_⟩
    simp only [goesOnNumber, Bool.or_eq_true, Bool.and_eq_true, beq_iff_eq] at goesOn ⊢
    rcases goesOn with plain | ⟨rfl, alphanum⟩
    · exact .inl plain
    · exact .inr ⟨rfl, (second rfl).symm.trans alphanum⟩
  · simp [joinsWord_of_goesOn goesOn] at other

/-- A number ends where no part of a name follows. -/
theorem numberLength_append {previous : Char} {count : Nat} {body after : List Char}
    (fits : numberLength previous count (body ++ after) = count + body.length) :
    after.head?.any isNamePart = false ∧ (∀ c, body.getLast? = some c → joinsWord c = true) ∧
      ∀ after', SameBreak after after' →
        numberLength previous count (body ++ after') = count + body.length := by
  simp only [numberLength_eq_scan] at fits ⊢
  obtain ⟨final, stops, ends, moves⟩ := numberScan.length_append fits
  have apart : after.head?.any isNamePart = false := by
    cases after with
    | nil => rfl
    | cons c rest =>
        simp only [Scan.Stops, numberScan, goesOnNumber] at stops
        simp only [List.head?_cons, Option.any_some]
        grind
  have goesOn {state c : Char} {next : Option Char} {result : Char × Bool}
      (step : numberScan state c next = some result) :
      goesOnNumber state c next = true ∧ result = (c, false) := by
    simp only [numberScan] at step
    grind
  refine ⟨apart, ?_, fun after' same => moves after' ?_ ?_⟩
  · intro c last
    simp only [Scan.EndsIn, last] at ends
    rcases ends with ⟨state, step⟩ | ⟨state, before, step⟩
    · exact joinsWord_of_goesOn (goesOn step).1
    · exact absurd (goesOn step).2 (by simp)
  · cases after' with
    | nil => trivial
    | cons c rest' =>
        refine if_neg fun goesOn' => ?_
        obtain ⟨rest, rfl, goesOn''⟩ := same.goesOn rfl goesOn'
        simp [Scan.Stops, numberScan, goesOn''] at stops
  · intro state c step
    obtain ⟨step, same⟩ := goesOn step
    have plain : goesOnNumber state c after'.head? = true := by
      simp only [goesOnNumber, Bool.or_eq_true, Bool.and_eq_true] at step ⊢
      rcases step with plain | ⟨-, alphanum⟩
      · exact .inl plain
      · cases after with
        | nil => simp at alphanum
        | cons d rest =>
            simp only [List.head?_cons, Option.any_some] at alphanum apart
            simp [isNamePart, alphanum] at apart
    rw [same, numberScan, if_pos plain]

end Piece

end Requalify
