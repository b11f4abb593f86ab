import Calcbook.Proofs.Lexeme.Scan

/-! Lexemes cut off a list of characters: an operator, an identifier, a number, or else a single character. A
    cursor over a text answers just these lexemes. -/

namespace Calcbook

namespace Lexeme

/-- A run of characters goes as far as the characters behind it are none of theirs. -/
theorem takeWhile_run {p : Char → Bool} {run rest : List Char} (hrun : run.all p = true)
    (hrest : ∀ c ∈ rest.head?, p c = false) :
    (run ++ rest).takeWhile p = run ∧ (run ++ rest).dropWhile p = rest := by
  have hall := List.all_eq_true.mp hrun
  rw [List.takeWhile_append_of_pos hall, List.dropWhile_append_of_pos hall]
  cases rest with
  | nil => exact ⟨List.append_nil run, rfl⟩
  | cons c rest =>
    have hc : ¬p c = true := Bool.eq_false_iff.mp (hrest c rfl)
    rw [List.takeWhile_cons_of_neg hc, List.dropWhile_cons_of_neg hc, List.append_nil]
    exact ⟨rfl, rfl⟩

theorem point_not_digit (rest : List Char) : ∀ c ∈ ('.' :: rest).head?, c.isDigit = false := by
  rintro c ⟨⟩
  decide

/-! ### Numbers

The characters of a part of a number at the front of a list, and those behind it. -/

/-- A decimal point and the digits behind it; without digits on either side the point is none. -/
def fraction (whole : Bool) : List Char → List Char × List Char
  | [] => ([], [])
  | c :: cs =>
    if c == '.' && (whole || !(cs.takeWhile Char.isDigit).isEmpty) then
      (c :: cs.takeWhile Char.isDigit, cs.dropWhile Char.isDigit)
    else ([], c :: cs)

/-- A sign. -/
def sign : List Char → List Char × List Char
  | [] => ([], [])
  | c :: cs => if ['+', '-'].contains c then ([c], cs) else ([], c :: cs)

/-- An exponent, which has digits behind its mark and sign. -/
def exponent : List Char → List Char × List Char
  | [] => ([], [])
  | c :: cs =>
    if ['e', 'E'].contains c && !((sign cs).2.takeWhile Char.isDigit).isEmpty then
      (c :: ((sign cs).1 ++ (sign cs).2.takeWhile Char.isDigit), (sign cs).2.dropWhile Char.isDigit)
    else ([], c :: cs)

/-- The digits of a number with its fraction. -/
def mantissa (cs : List Char) : List Char × List Char :=
  let whole := cs.takeWhile Char.isDigit
  let (point, rest) := fraction (!whole.isEmpty) (cs.dropWhile Char.isDigit)
  (whole ++ point, rest)

/-- A number; without a mantissa there is none. -/
def number (cs : List Char) : List Char × List Char :=
  let (digits, rest) := mantissa cs
  if digits.isEmpty then ([], cs)
  else
    let (power, rest) := exponent rest
    (digits ++ power, rest)

/-! ### Lexemes -/

/-- The lexeme at the front, by its kind and its characters, and the characters behind it. -/
def cut : List Char → Option (Kind × List Char × List Char)
  | [] => none
  | c :: cs =>
    if isOperator c then some (.ofOperator (String.ofList [c]), [c], cs)
    else if isIdentStart c then some (.ident, c :: cs.takeWhile isIdentPart, cs.dropWhile isIdentPart)
    else
      match number (c :: cs) with
      | ([], _) => some (.unknown, [c], cs)
      | (text, rest) => some (.number, text, rest)

theorem fraction_append (whole : Bool) (cs : List Char) : (fraction whole cs).1 ++ (fraction whole cs).2 = cs := by
  unfold fraction
  split
  · rfl
  · split
    · rw [List.cons_append, List.takeWhile_append_dropWhile]
    · rfl

theorem sign_append (cs : List Char) : (sign cs).1 ++ (sign cs).2 = cs := by
  unfold sign
  split
  · rfl
  · split <;> rfl

theorem exponent_append (cs : List Char) : (exponent cs).1 ++ (exponent cs).2 = cs := by
  unfold exponent
  split
  · rfl
  · split
    · rw [List.cons_append, List.append_assoc, List.takeWhile_append_dropWhile, sign_append]
    · rfl

theorem mantissa_append (cs : List Char) : (mantissa cs).1 ++ (mantissa cs).2 = cs := by
  simp only [mantissa, List.append_assoc, fraction_append, List.takeWhile_append_dropWhile]

theorem number_append (cs : List Char) : (number cs).1 ++ (number cs).2 = cs := by
  unfold number
  dsimp only
  split
  · rfl
  · dsimp only
    rw [List.append_assoc, exponent_append, mantissa_append]

/-- A lexeme and what is behind it make up the characters, and the lexeme has some of them. -/
theorem append_of_cut {cs text rest : List Char} {kind : Kind} (h : cut cs = some (kind, text, rest)) :
    text ++ rest = cs ∧ text ≠ [] := by
  unfold cut at h
  split at h
  · cases h
  · rename_i c cs
    split at h
    · cases h
      exact ⟨rfl, List.cons_ne_nil _ _⟩
    · split at h
      · cases h
        exact ⟨by rw [List.cons_append, List.takeWhile_append_dropWhile], List.cons_ne_nil _ _⟩
      · have happend := number_append (c :: cs)
        split at h
        · cases h
          exact ⟨rfl, List.cons_ne_nil _ _⟩
        · rename_i hne hnumber
          cases h
          rw [hnumber] at happend
          exact ⟨happend, fun hnil => hne hnil⟩

theorem length_of_cut {cs text rest : List Char} {kind : Kind} (h : cut (cs.dropWhile isBlank) = some (kind, text, rest)) :
    rest.length < cs.length := by
  obtain ⟨happend, hne⟩ := append_of_cut h
  have hlen := congrArg List.length happend
  have hdrop := (List.dropWhile_sublist (l := cs) isBlank).length_le
  have := List.length_pos_iff.mpr hne
  rw [List.length_append] at hlen
  omega

/-- All the lexemes of some characters that start at a place. -/
def cutAll (start : Nat) (cs : List Char) : List Lexeme :=
  match _h : cut (cs.dropWhile isBlank) with
  | none => []
  | some (kind, text, rest) =>
    ⟨kind, String.ofList text, start + (cs.takeWhile isBlank).length⟩ ::
      cutAll (start + (cs.takeWhile isBlank).length + text.length) rest
termination_by cs.length
decreasing_by exact length_of_cut _h

theorem cutAll_eq (start : Nat) (cs : List Char) : cutAll start cs =
    match cut (cs.dropWhile isBlank) with
    | none => []
    | some (kind, text, rest) => ⟨kind, String.ofList text, start + (cs.takeWhile isBlank).length⟩ ::
      cutAll (start + (cs.takeWhile isBlank).length + text.length) rest := by
  rw [cutAll]
  split <;> rename_i h <;> rw [h]

end Lexeme

/-! ### The scans of a cursor -/

namespace Cursor.Shows
open Lexeme

variable {c : Cursor Char} {n : Nat} {v r : List Char}

theorem takeText (h : Shows c n v r) : c.takeText.1 = String.ofList v ∧ Shows c.takeText.2 (n + v.length) [] r :=
  ⟨congrArg String.ofList h.view_eq, h.dropShown⟩

theorem dropBlanks (h : Shows c n [] r) :
    Shows c.dropBlanks (n + (r.takeWhile isBlank).length) [] (r.dropWhile isBlank) :=
  (h.skipWhile (p := isBlank)).dropShown

theorem skipFraction (whole : Bool) (h : Shows c n v r) :
    Shows (c.skipFraction whole) n (v ++ (fraction whole r).1) (fraction whole r).2 := by
  rw [Cursor.skipFraction, accept]
  cases r with
  | nil =>
    obtain ⟨c', hc, h'⟩ := h.acceptIf_of_neg (p := (· == '.')) (by simp)
    simpa only [hc, fraction, List.append_nil] using h'
  | cons x r =>
    cases hx : x == '.' with
    | false =>
      obtain ⟨c', hc, h'⟩ := h.acceptIf_of_neg (p := (· == '.')) (by simpa using hx)
      simpa only [hc, fraction, hx, Bool.false_and, Bool.false_eq_true, if_false, List.append_nil] using h'
    | true =>
      obtain ⟨c', hc, h'⟩ := h.acceptIf_of_pos (p := (· == '.')) hx
      obtain ⟨hdigits, hrun⟩ := h'.skipRun (p := Char.isDigit)
      simp only [hc, fraction, hx, Bool.true_and, hdigits]
      split
      · simpa using hrun
      · rw [h.shown_eq]
        rw [List.append_assoc] at hrun
        simpa using hrun.backTo

theorem skipMantissa (h : Shows c n v r) : Shows c.skipMantissa n (v ++ (mantissa r).1) (mantissa r).2 := by
  obtain ⟨hdigits, hrun⟩ := h.skipRun (p := Char.isDigit)
  have hfraction := hrun.skipFraction (!(r.takeWhile Char.isDigit).isEmpty)
  rw [Cursor.skipMantissa]
  simpa only [mantissa, hdigits, List.append_assoc] using hfraction

/-- The sign of an exponent may be missing. -/
theorem acceptSign (h : Shows c n v r) : Shows (c.acceptAny ['+', '-']).2 n (v ++ (sign r).1) (sign r).2 := by
  rw [acceptAny]
  cases r with
  | nil =>
    obtain ⟨c', hc, h'⟩ := h.acceptIf_of_neg (p := (['+', '-'].contains ·)) (by simp)
    simpa only [hc, sign, List.append_nil] using h'
  | cons x r =>
    cases hx : ['+', '-'].contains x with
    | false =>
      obtain ⟨c', hc, h'⟩ := h.acceptIf_of_neg (p := (['+', '-'].contains ·)) (by simpa using hx)
      simpa only [hc, sign, hx, Bool.false_eq_true, if_false, List.append_nil] using h'
    | true =>
      obtain ⟨c', hc, h'⟩ := h.acceptIf_of_pos (p := (['+', '-'].contains ·)) hx
      simpa only [hc, sign, hx, if_true] using h'

theorem skipExponent (h : Shows c n v r) : Shows c.skipExponent n (v ++ (exponent r).1) (exponent r).2 := by
  rw [Cursor.skipExponent, acceptAny]
  cases r with
  | nil =>
    obtain ⟨c', hc, h'⟩ := h.acceptIf_of_neg (p := (['e', 'E'].contains ·)) (by simp)
    simpa only [hc, exponent, List.append_nil] using h'
  | cons x r =>
    cases hx : ['e', 'E'].contains x with
    | false =>
      obtain ⟨c', hc, h'⟩ := h.acceptIf_of_neg (p := (['e', 'E'].contains ·)) (by simpa using hx)
      simpa only [hc, exponent, hx, Bool.false_and, Bool.false_eq_true, if_false, List.append_nil] using h'
    | true =>
      obtain ⟨c', hc, h'⟩ := h.acceptIf_of_pos (p := (['e', 'E'].contains ·)) hx
      obtain ⟨hdigits, hrun⟩ := h'.acceptSign.skipRun (p := Char.isDigit)
      simp only [hc, exponent, hx, Bool.true_and, hdigits]
      simp only [List.append_assoc] at hrun
      split
      · simpa using hrun
      · rw [h.shown_eq]
        simpa [List.takeWhile_append_dropWhile, sign_append] using hrun.backTo

theorem takeNumber (h : Shows c n [] r) :
    ((number r).1 = [] → ∃ c', c.takeNumber = (none, c') ∧ Shows c' n [] r) ∧
    ((number r).1 ≠ [] → ∃ c', c.takeNumber = (some (String.ofList (number r).1), c') ∧
      Shows c' (n + (number r).1.length) [] (number r).2) := by
  have hmantissa := h.skipMantissa
  have hshown := hmantissa.shown_eq
  have hnone : c.skipMantissa.shown = c.shown ↔ (mantissa r).1 = [] := by
    rw [hshown, h.shown_eq]
    simp
  rw [Cursor.takeNumber]
  cases hdigits : (mantissa r).1 with
  | nil =>
    have hnumber : (number r).1 = [] := by simp [number, hdigits]
    have hrest := mantissa_append r
    rw [hdigits, List.nil_append] at hrest
    rw [hdigits, hrest] at hmantissa
    refine ⟨fun _ => ⟨_, if_pos (hnone.mpr hdigits), hmantissa⟩, fun hne => (hne hnumber).elim⟩
  | cons x digits =>
    have hnumber : number r = ((mantissa r).1 ++ (exponent (mantissa r).2).1, (exponent (mantissa r).2).2) := by
      simp [number, hdigits]
    obtain ⟨htext, hshows⟩ := hmantissa.skipExponent.takeText
    rw [if_neg (by rw [hnone, hdigits]; exact List.cons_ne_nil _ _)]
    refine ⟨fun hnil => ?_, fun _ => ⟨_, Prod.ext (congrArg some ?_) rfl, ?_⟩⟩
    · simp [hnumber, hdigits] at hnil
    · rw [htext, hnumber, List.nil_append]
    · rw [hnumber]
      simpa using hshows

theorem takeOperator_of_pos {x : Char} (h : Shows c n [] (x :: r)) (hx : isOperator x = true) :
    ∃ c', c.takeOperator = (some (String.ofList [x]), c') ∧ Shows c' (n + 1) [] r := by
  obtain ⟨c', hc, h'⟩ := h.acceptIf_of_pos hx
  refine ⟨c'.takeText.2, ?_, h'.takeText.2⟩
  rw [Cursor.takeOperator, hc]
  exact Prod.ext (congrArg some h'.takeText.1) rfl

theorem takeOperator_of_neg (h : Shows c n [] r) (hr : ∀ x ∈ r.head?, isOperator x = false) :
    ∃ c', c.takeOperator = (none, c') ∧ Shows c' n [] r := by
  obtain ⟨c', hc, h'⟩ := h.acceptIf_of_neg hr
  exact ⟨c', by rw [Cursor.takeOperator, hc], h'⟩

theorem takeIdent_of_pos {x : Char} (h : Shows c n [] (x :: r)) (hx : isIdentStart x = true) :
    ∃ c', c.takeIdent = (some (String.ofList (x :: r.takeWhile isIdentPart)), c') ∧
      Shows c' (n + (x :: r.takeWhile isIdentPart).length) [] (r.dropWhile isIdentPart) := by
  obtain ⟨c', hc, h'⟩ := h.acceptIf_of_pos hx
  obtain ⟨htext, hshows⟩ := (h'.skipWhile (p := isIdentPart)).takeText
  refine ⟨_, ?_, hshows⟩
  rw [Cursor.takeIdent, hc]
  exact Prod.ext (congrArg some htext) rfl

theorem takeIdent_of_neg (h : Shows c n [] r) (hr : ∀ x ∈ r.head?, isIdentStart x = false) :
    ∃ c', c.takeIdent = (none, c') ∧ Shows c' n [] r := by
  obtain ⟨c', hc, h'⟩ := h.acceptIf_of_neg hr
  exact ⟨c', by rw [Cursor.takeIdent, hc], h'⟩

/-! ### Lexemes -/

/-- A cursor answers the lexeme behind the blanks ahead. -/
theorem lexeme? (h : Shows c n [] r) :
    match cut (r.dropWhile isBlank) with
    | none => c.lexeme? = none
    | some (kind, text, rest) => ∃ c',
      c.lexeme? = some (⟨kind, String.ofList text, n + (r.takeWhile isBlank).length⟩, c') ∧
        Shows c' (n + (r.takeWhile isBlank).length + text.length) [] rest := by
  have hstart := h.dropBlanks
  have hoffset : c.dropBlanks.offset = n + (r.takeWhile isBlank).length := hstart.dropped_eq
  rw [Cursor.lexeme?]
  dsimp only
  rw [hoffset]
  generalize c.dropBlanks = start at hstart
  generalize n + (r.takeWhile isBlank).length = offset at hstart
  generalize r.dropWhile isBlank = cs at hstart
  cases cs with
  | nil =>
    obtain ⟨c₁, h₁, hs₁⟩ := hstart.takeOperator_of_neg (by simp)
    obtain ⟨c₂, h₂, hs₂⟩ := hs₁.takeIdent_of_neg (by simp)
    obtain ⟨c₃, h₃, hs₃⟩ := hs₂.takeNumber.1 rfl
    have hnext : c₃.next = (none, c₃.next.2) := Prod.ext hs₃.next_nil.1 rfl
    dsimp only [cut]
    rw [h₁]
    dsimp only
    rw [h₂]
    dsimp only
    rw [h₃]
    dsimp only
    rw [hnext]
  | cons x cs =>
    rw [cut]
    cases hop : isOperator x with
    | true =>
      obtain ⟨c₁, h₁, hs₁⟩ := hstart.takeOperator_of_pos hop
      exact ⟨c₁, by rw [h₁], hs₁⟩
    | false =>
      obtain ⟨c₁, h₁, hs₁⟩ := hstart.takeOperator_of_neg (by simpa using hop)
      rw [h₁]
      simp only [Bool.false_eq_true, if_false]
      cases hident : isIdentStart x with
      | true =>
        obtain ⟨c₂, h₂, hs₂⟩ := hs₁.takeIdent_of_pos hident
        rw [h₂]
        exact ⟨c₂, rfl, hs₂⟩
      | false =>
        obtain ⟨c₂, h₂, hs₂⟩ := hs₁.takeIdent_of_neg (by simpa using hident)
        obtain ⟨hnone, hsome⟩ := hs₂.takeNumber
        rw [h₂]
        simp only [Bool.false_eq_true, if_false]
        split
        · rename_i heq
          split at heq
          · cases heq
          · cases heq
        · rename_i kind text rest heq
          split at heq
          · rename_i hnumber
            cases heq
            obtain ⟨c₃, h₃, hs₃⟩ := hnone (by rw [hnumber])
            obtain ⟨hx, hshows⟩ := hs₃.next_cons
            have hnext : c₃.next = (some x, c₃.next.2) := Prod.ext hx rfl
            rw [h₃]
            dsimp only
            rw [hnext]
            dsimp only
            exact ⟨_, by rw [hshows.takeText.1, List.nil_append], hshows.takeText.2⟩
          · rename_i hne hnumber
            cases heq
            rw [hnumber] at hsome
            obtain ⟨c₃, h₃, hs₃⟩ := hsome fun hnil => hne hnil
            rw [h₃]
            exact ⟨c₃, rfl, hs₃⟩

theorem lexemes (h : Shows c n [] r) : c.lexemes = cutAll n r := by
  rw [Cursor.lexemes]
  induction n, r using cutAll.induct generalizing c with
  | case1 n r hcut =>
    have hlexeme := h.lexeme?
    rw [hcut] at hlexeme
    rw [exhaust, cutAll_eq, hcut]
    split
    · rename_i heq
      cases hlexeme.symm.trans heq
    · rfl
  | case2 n r kind text rest hcut ih =>
    have hlexeme := h.lexeme?
    rw [hcut] at hlexeme
    obtain ⟨c', hc, h'⟩ := hlexeme
    rw [exhaust, cutAll_eq, hcut]
    split
    · rename_i heq
      cases hc.symm.trans heq
      rw [ih h']
    · rename_i heq
      cases hc.symm.trans heq

end Cursor.Shows

theorem Lexeme.ofText_eq_cutAll (text : String) : ofText text = cutAll 0 text.toList :=
  (Cursor.shows_ofList text.toList).lexemes

end Calcbook
