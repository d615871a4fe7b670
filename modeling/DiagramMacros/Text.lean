/-!
Text is a list of characters, and its length is counted in UTF-8 bytes. A blank is a character of
the Unicode property `White_Space`; trimming removes blanks at both ends, and `collapse` writes the
words of a text with one space between them.

The main statement about trimming is that it removes nothing inside: a text is its leading blanks,
its trimmed part and its trailing blanks (`exists_trim`). Cutting at a character loses only that
character (`cut?_eq_some`), and a text opens or closes with another exactly if it is that text and
the rest put together (`after?_eq_some_iff`, `before?_eq_some_iff`).
-/

set_option autoImplicit false
set_option relaxedAutoImplicit false

namespace DiagramMacros

/-- A text, character by character. -/
abbrev Text := List Char

instance : Coe String Text := ⟨String.toList⟩

namespace Text

/-- The number of bytes of a text in UTF-8. -/
def size : Text → Nat
  | [] => 0
  | c :: s => c.utf8Size + size s

@[simp] theorem size_nil : size [] = 0 := rfl

@[simp] theorem size_cons (c : Char) (s : Text) : size (c :: s) = c.utf8Size + size s := rfl

@[simp] theorem size_append (s t : Text) : size (s ++ t) = size s + size t := by
  induction s with
  | nil => simp
  | cons c s ih => rw [List.cons_append, size_cons, size_cons, ih, Nat.add_assoc]

theorem size_eq_zero_iff {s : Text} : size s = 0 ↔ s = [] := by
  cases s with
  | nil => simp
  | cons c s =>
    have hpos := Char.utf8Size_pos c
    simp only [size_cons, reduceCtorEq, iff_false]
    omega

/-- The code points of the Unicode property `White_Space`, as ranges with both ends included. -/
def blankRanges : List (Nat × Nat) :=
  [(0x9, 0xD), (0x20, 0x20), (0x85, 0x85), (0xA0, 0xA0), (0x1680, 0x1680), (0x2000, 0x200A),
    (0x2028, 0x2029), (0x202F, 0x202F), (0x205F, 0x205F), (0x3000, 0x3000)]

/-- Whether a character has the Unicode property `White_Space`. -/
def isBlank (c : Char) : Bool :=
  blankRanges.any fun r ↦ r.1 ≤ c.toNat && c.toNat ≤ r.2

/-- The text without its leading blanks. -/
def trimStart (s : Text) : Text := s.dropWhile isBlank

/-- The text without its trailing blanks. -/
def trimEnd (s : Text) : Text := (s.reverse.dropWhile isBlank).reverse

/-- The text without the blanks at its two ends. -/
def trim (s : Text) : Text := trimEnd (trimStart s)

theorem exists_trim (s : Text) :
    ∃ before after : Text,
      s = before ++ trim s ++ after ∧ before.all isBlank ∧ after.all isBlank := by
  refine ⟨s.takeWhile isBlank, ((trimStart s).reverse.takeWhile isBlank).reverse, ?_, ?_, ?_⟩
  · have tail : trimStart s =
        trim s ++ ((trimStart s).reverse.takeWhile isBlank).reverse := by
      rw [trim, trimEnd, ← List.reverse_append, List.takeWhile_append_dropWhile,
        List.reverse_reverse]
    rw [List.append_assoc, ← tail, trimStart, List.takeWhile_append_dropWhile]
  · exact List.all_takeWhile
  · rw [List.all_reverse]
    exact List.all_takeWhile

theorem trimEnd_append {s after : Text} (h : after.all isBlank) :
    trimEnd (s ++ after) = trimEnd s := by
  have hreverse : ∀ c ∈ after.reverse, isBlank c := fun c hc ↦
    List.all_eq_true.1 h c (List.mem_reverse.1 hc)
  rw [trimEnd, List.reverse_append, List.dropWhile_append_of_pos hreverse, trimEnd]

/-- Blanks after a text make no difference to its trimmed part. -/
theorem trim_append {s after : Text} (h : after.all isBlank) : trim (s ++ after) = trim s := by
  unfold trim trimStart
  rw [List.dropWhile_append]
  by_cases hs : (s.dropWhile isBlank).isEmpty
  · have hafter : after.dropWhile isBlank = [] := by
      rw [← List.append_nil after, List.dropWhile_append_of_pos (List.all_eq_true.1 h)]
      rfl
    rw [if_pos hs, hafter, List.isEmpty_iff.1 hs]
  · rw [if_neg hs, trimEnd_append h]

/-- Blanks before a text make no difference to its trimmed part. -/
theorem trim_prepend {before s : Text} (h : before.all isBlank) : trim (before ++ s) = trim s := by
  rw [trim, trimStart, List.dropWhile_append_of_pos (List.all_eq_true.1 h), trim, trimStart]

/-- The words of a text: its maximal runs of characters that are no blanks. The word under way is
held in reverse. -/
def wordsFrom (word : Text) : Text → List Text
  | [] => if word.isEmpty then [] else [word.reverse]
  | c :: s =>
    if isBlank c then (if word.isEmpty then [] else [word.reverse]) ++ wordsFrom [] s
    else wordsFrom (c :: word) s

/-- The maximal runs of characters that are no blanks. -/
def words (s : Text) : List Text := wordsFrom [] s

/-- Joins texts with a separator between neighbours. -/
def join (separator : Text) (parts : List Text) : Text := parts.intersperse separator |>.flatten

/-- The words of a text with one space between neighbours. -/
def collapse (s : Text) : Text := join " " (words s)

/-- Cuts a text at the first occurrence of a character, which belongs to neither part. -/
def cut? (c : Char) : Text → Option (Text × Text)
  | [] => none
  | d :: s => if d = c then some ([], s) else (cut? c s).map fun parts ↦ (d :: parts.1, parts.2)

theorem cut?_eq_some {c : Char} {s before after : Text} (h : cut? c s = some (before, after)) :
    s = before ++ c :: after ∧ c ∉ before := by
  induction s generalizing before with
  | nil => simp [cut?] at h
  | cons d s ih =>
    by_cases hd : d = c
    · simp only [cut?, hd, if_true, Option.some.injEq, Prod.mk.injEq] at h
      obtain ⟨rfl, rfl⟩ := h
      simp [hd]
    · simp only [cut?, hd, if_false, Option.map_eq_some_iff] at h
      obtain ⟨⟨before', after'⟩, hcut, heq⟩ := h
      simp only [Prod.mk.injEq] at heq
      obtain ⟨rfl, rfl⟩ := heq
      obtain ⟨rfl, hnot⟩ := ih hcut
      exact ⟨rfl, by simp [hnot, Ne.symm hd]⟩

/-- The parts of a text between the occurrences of a character; there is one part more than there
are occurrences. -/
def splitOn (c : Char) : Text → List Text
  | [] => [[]]
  | d :: s =>
    if d = c then [] :: splitOn c s
    else match splitOn c s with
      | [] => [[d]]
      | part :: parts => (d :: part) :: parts

/-- What is left after an opening text, if the text opens with it. -/
def after? : Text → Text → Option Text
  | [], s => some s
  | _ :: _, [] => none
  | p :: ps, c :: s => if p = c then after? ps s else none

theorem after?_eq_some_iff {opening s rest : Text} :
    after? opening s = some rest ↔ s = opening ++ rest := by
  induction opening generalizing s with
  | nil => simp [after?]
  | cons p ps ih =>
    cases s with
    | nil => simp [after?]
    | cons c s =>
      by_cases h : p = c
      · simp [after?, h, ih]
      · simp [after?, h, Ne.symm h]

/-- What stands before a closing text, if the text ends with it. -/
def before? (closing s : Text) : Option Text :=
  (after? closing.reverse s.reverse).map List.reverse

theorem before?_eq_some_iff {closing s rest : Text} :
    before? closing s = some rest ↔ s = rest ++ closing := by
  simp only [before?, Option.map_eq_some_iff, after?_eq_some_iff]
  constructor
  · rintro ⟨r, hr, rfl⟩
    simpa using congrArg List.reverse hr
  · rintro rfl
    exact ⟨rest.reverse, by simp, by simp⟩

/-- Cuts a text after so many bytes, if a character ends there. -/
def splitAt? : Nat → Text → Option (Text × Text)
  | 0, s => some ([], s)
  | _ + 1, [] => none
  | n + 1, c :: s =>
    if c.utf8Size ≤ n + 1 then
      (splitAt? (n + 1 - c.utf8Size) s).map fun parts ↦ (c :: parts.1, parts.2)
    else none

theorem splitAt?_append (before after : Text) :
    splitAt? (size before) (before ++ after) = some (before, after) := by
  induction before with
  | nil =>
    rw [size_nil, splitAt?]
    rfl
  | cons c before ih =>
    obtain ⟨n, hn⟩ := Nat.exists_eq_add_one_of_ne_zero (Nat.ne_of_gt (Char.utf8Size_pos c))
    have hsize : size (c :: before) = n + size before + 1 := by
      rw [size_cons, hn]
      omega
    have hle : c.utf8Size ≤ n + size before + 1 := by omega
    have hrest : n + size before + 1 - c.utf8Size = size before := by omega
    rw [hsize, List.cons_append, splitAt?, if_pos hle, hrest, ih]
    rfl

/-- The text from one byte to another, if characters end at both. -/
def slice? (start stop : Nat) (s : Text) : Option Text :=
  (splitAt? start s).bind fun parts ↦ (splitAt? (stop - start) parts.2).map Prod.fst

theorem slice?_append (before middle after : Text) :
    slice? (size before) (size before + size middle) (before ++ middle ++ after) = some middle := by
  rw [slice?, List.append_assoc, splitAt?_append, Option.bind_some, Nat.add_sub_cancel_left,
    splitAt?_append]
  rfl

/-- The text from one byte to another, empty unless characters end at both. -/
def slice (start stop : Nat) (s : Text) : Text := (slice? start stop s).getD []

/-- The text from a byte on, empty unless a character ends there. -/
def dropBytes (n : Nat) (s : Text) : Text := ((splitAt? n s).map Prod.snd).getD []

theorem slice_append (before middle after : Text) :
    slice (size before) (size before + size middle) (before ++ middle ++ after) = middle := by
  rw [slice, slice?_append]
  rfl

theorem dropBytes_append (before after : Text) :
    dropBytes (size before) (before ++ after) = after := by
  rw [dropBytes, splitAt?_append]
  rfl

/-- The longest start of a text in which every character is of a class, and what follows it. -/
def cutWhile (accepts : Char → Bool) (s : Text) : Text × Text :=
  (s.takeWhile accepts, s.dropWhile accepts)

theorem cutWhile_append (accepts : Char → Bool) (s : Text) :
    (cutWhile accepts s).1 ++ (cutWhile accepts s).2 = s :=
  List.takeWhile_append_dropWhile

/-- Whether a text starts with a character of a class. -/
def startsWith (accepts : Char → Bool) (s : Text) : Bool := s.head?.any accepts

/-- Whether a text ends with a character of a class. -/
def endsWith (accepts : Char → Bool) (s : Text) : Bool := s.getLast?.any accepts

@[simp] theorem startsWith_cons (accepts : Char → Bool) (c : Char) (s : Text) :
    startsWith accepts (c :: s) = accepts c := rfl

/-- The longest start of a text ends where the text goes on with another character. -/
theorem startsWith_dropWhile (accepts : Char → Bool) (s : Text) :
    startsWith accepts (s.dropWhile accepts) = false := by
  induction s with
  | nil => rfl
  | cons c s ih =>
    rw [List.dropWhile_cons]
    split
    · exact ih
    · rename_i h
      simpa using h

theorem dropWhile_of_not {accepts : Char → Bool} {s : Text} (h : startsWith accepts s = false) :
    s.dropWhile accepts = s := by
  cases s with
  | nil => rfl
  | cons c s => rw [List.dropWhile_cons, ← startsWith_cons accepts c s, h, if_neg (by simp)]

theorem takeWhile_of_not {accepts : Char → Bool} {s : Text} (h : startsWith accepts s = false) :
    s.takeWhile accepts = [] := by
  cases s with
  | nil => rfl
  | cons c s => rw [List.takeWhile_cons, ← startsWith_cons accepts c s, h, if_neg (by simp)]

/-- A text with no blank at either end is its trimmed part. -/
theorem trim_eq_self {s : Text} {c : Char} {t : Text} (hfirst : startsWith isBlank s = false)
    (hlast : s = t ++ [c]) (hc : isBlank c = false) : trim s = s := by
  have hend : startsWith isBlank s.reverse = false := by
    rw [hlast, List.reverse_append, List.reverse_singleton, List.singleton_append, startsWith_cons,
      hc]
  rw [trim, trimStart, dropWhile_of_not hfirst, trimEnd, dropWhile_of_not hend,
    List.reverse_reverse]

theorem takeWhile_append_of_all {accepts : Char → Bool} {s more : Text} (hs : s.all accepts)
    (hmore : startsWith accepts more = false) : (s ++ more).takeWhile accepts = s := by
  rw [List.takeWhile_append_of_pos (List.all_eq_true.1 hs), takeWhile_of_not hmore,
    List.append_nil]

theorem dropWhile_append_of_all {accepts : Char → Bool} {s more : Text} (hs : s.all accepts)
    (hmore : startsWith accepts more = false) : (s ++ more).dropWhile accepts = more := by
  rw [List.dropWhile_append_of_pos (List.all_eq_true.1 hs), dropWhile_of_not hmore]

end Text

/-- The ASCII letters. -/
def isLetter (c : Char) : Bool := c.isAlpha

theorem isLetter_iff {c : Char} :
    isLetter c ↔ (65 ≤ c.toNat ∧ c.toNat ≤ 90) ∨ (97 ≤ c.toNat ∧ c.toNat ≤ 122) := by
  have hupper : c.isUpper ↔ 65 ≤ c.toNat ∧ c.toNat ≤ 90 := decide_eq_true_iff
  have hlower : c.isLower ↔ 97 ≤ c.toNat ∧ c.toNat ≤ 122 :=
    Bool.and_eq_true_iff.trans (and_congr decide_eq_true_iff decide_eq_true_iff)
  exact Bool.or_eq_true_iff.trans (or_congr hupper hlower)

/-- A letter in lower case comes from a letter. -/
theorem isLetter_of_toLower {c : Char} (h : isLetter c.toLower) : isLetter c := by
  unfold Char.toLower at h
  split at h
  · rename_i hupper
    exact isLetter_iff.2 (Or.inl hupper)
  · exact h

/-- The ASCII digits. -/
def isDigit (c : Char) : Bool := c.isDigit

theorem isDigit_iff {c : Char} : isDigit c ↔ 48 ≤ c.toNat ∧ c.toNat ≤ 57 :=
  Bool.and_eq_true_iff.trans (and_congr decide_eq_true_iff decide_eq_true_iff)

end DiagramMacros
