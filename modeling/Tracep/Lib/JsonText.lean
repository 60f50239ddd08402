import Tracep.Lib.Decimal
import Tracep.Lib.Json

/-!
# JSON texts

Strings, numbers, arrays and objects as they stand in a JSON text that has
no blanks in it (`Prints`), and a reader of such texts. Some text stands for
a value if strings are read by `unescape` and numbers are kept as they are.

The reader takes what stands for a value, and gives that value
(`parse_prints`). So a text stands for one value at most, and where one ends
is told by the text itself (`value_prints`).
-/

namespace Tracep.Json

open Strconv (digits_isDigit digits_ne_nil head?_digits)

inductive Value where
  | str (s : Bytes)
  | num (s : Bytes)
  | arr (vs : List Value)
  | obj (ms : List (Bytes × Value))

/-! ## Texts -/

def isExponent : Bytes → Bool
  | [] => true
  | b :: s =>
      let digits := if s.head? = some 43 ∨ s.head? = some 45 then s.tail else s
      (b = 101 || b = 69) && digits ≠ [] && digits.all isDigit

def isFraction : Bytes → Bool
  | 46 :: s => s.takeWhile isDigit ≠ [] && isExponent (s.dropWhile isDigit)
  | s => isExponent s

/-- A number, its sign apart. -/
def isUnsigned (s : Bytes) : Bool :=
  let int := s.takeWhile isDigit
  (int = [48] || int ≠ [] && int.head? ≠ some 48) && isFraction (s.dropWhile isDigit)

def isNumber (s : Bytes) : Bool := isUnsigned (if s.head? = some 45 then s.tail else s)

/-- What stands between the quotes of a string, with the quotes. -/
def quote (raw : Bytes) : Bytes := 34 :: raw ++ [34]

/-- The text stands for the value. -/
inductive Prints : Value → Bytes → Prop
  | str {raw s : Bytes} (h : unescape raw = some s) : Prints (.str s) (quote raw)
  | num {s : Bytes} (h : isNumber s = true) : Prints (.num s) s
  | arr (vs : List (Value × Bytes)) (h : ∀ v ∈ vs, Prints v.1 v.2) :
      Prints (.arr (vs.map (·.1))) (91 :: join [44] (vs.map (·.2)) ++ [93])
  | obj (ms : List ((Bytes × Bytes) × Value × Bytes))
      (hkeys : ∀ m ∈ ms, unescape m.1.2 = some m.1.1) (h : ∀ m ∈ ms, Prints m.2.1 m.2.2) :
      Prints (.obj (ms.map fun m => (m.1.1, m.2.1)))
        (123 :: join [44] (ms.map fun m => quote m.1.2 ++ 58 :: m.2.2) ++ [125])

/-! ## Reading -/

/-- Reads something at the beginning of a text, and leaves the rest. -/
abbrev Reader (α : Type) := Bytes → Option (α × Bytes)

/-- The text up to the quote that ends a string. -/
def rawString : Reader Bytes
  | [] => none
  | 34 :: s => some ([], s)
  | 92 :: b :: s => (rawString s).map fun (raw, rest) => (92 :: b :: raw, rest)
  | b :: s => (rawString s).map fun (raw, rest) => (b :: raw, rest)

/-- A string, after its first quote. -/
def string : Reader Bytes := fun s =>
  (rawString s).bind fun (raw, rest) => (unescape raw).map (·, rest)

/-- The bytes of numbers. -/
def inNumber (b : UInt8) : Bool := isDigit b || [43, 45, 46, 69, 101].contains b

def number : Reader Bytes := fun s =>
  if isNumber (s.takeWhile inNumber) then some (s.takeWhile inNumber, s.dropWhile inNumber)
  else none

variable {α : Type}

/-- One item or more with commas between them, up to the bracket that closes the list. -/
def sequence (item : Reader α) (close : UInt8) : Nat → Reader (List α)
  | 0, _ => none
  | n + 1, s => (item s).bind fun (a, rest) =>
      match rest with
      | [] => none
      | b :: rest =>
          if b = close then some ([a], rest)
          else if b = 44 then (sequence item close n rest).map fun (as, rest) => (a :: as, rest)
          else none

/-- The items of a list, after its first bracket. -/
def items (item : Reader α) (close : UInt8) (n : Nat) : Reader (List α) := fun s =>
  if s.head? = some close then some ([], s.tail) else sequence item close n s

def member (value : Reader Value) : Reader (Bytes × Value)
  | 34 :: s => (string s).bind fun (key, rest) =>
      match rest with
      | 58 :: rest => (value rest).map fun (v, rest) => ((key, v), rest)
      | _ => none
  | _ => none

/-- A value that is nested so deep at most. -/
def value : Nat → Reader Value
  | 0, _ => none
  | _ + 1, [] => none
  | n + 1, b :: s =>
      if b = 34 then (string s).map fun (v, rest) => (.str v, rest)
      else if b = 91 then (items (value n) 93 n s).map fun (vs, rest) => (.arr vs, rest)
      else if b = 123 then (items (member (value n)) 125 n s).map fun (ms, rest) => (.obj ms, rest)
      else (number (b :: s)).map fun (v, rest) => (.num v, rest)

/-- The value that a whole text stands for. -/
def parse (s : Bytes) : Option Value :=
  match value (s.length + 1) s with
  | some (v, []) => some v
  | _ => none

/-! ## Strings -/

variable {s t raw rest : Bytes} {b : UInt8}

theorem rawString_plain (h34 : b ≠ 34) (h92 : b ≠ 92) :
    rawString (b :: s) = (rawString s).map fun (raw, rest) => (b :: raw, rest) := by
  rw [rawString]
  · exact fun heq => absurd heq h34
  · exact fun _ _ heq => absurd heq h92

theorem rawString_chars (h : Chars raw) : rawString (raw ++ 34 :: rest) = some (raw, rest) := by
  induction h with
  | nil => rfl
  | plain hb hs ih =>
      rw [List.cons_append, rawString_plain (fun heq => hb (Or.inr (Or.inl heq)))
        (fun heq => hb (Or.inr (Or.inr heq))), ih]
      rfl
  | short hb hs ih =>
      rw [List.cons_append, List.cons_append, rawString, ih]
      rfl
  | @long a b c d s hdigits hs ih =>
      have hplain : ∀ x ∈ [a, b, c, d], x ≠ 34 ∧ x ≠ 92 := by
        intro x hx
        have hhex := hdigits x hx
        constructor <;> rintro rfl <;> exact absurd hhex (by decide)
      simp only [List.mem_cons, List.not_mem_nil, or_false, forall_eq_or_imp, forall_eq] at hplain
      obtain ⟨ha, hb, hc, hd⟩ := hplain
      simp only [List.cons_append]
      rw [rawString, rawString_plain ha.1 ha.2, rawString_plain hb.1 hb.2,
        rawString_plain hc.1 hc.2, rawString_plain hd.1 hd.2, ih]
      rfl

theorem string_raw (h : unescape raw = some s) : string (raw ++ 34 :: rest) = some (s, rest) := by
  rw [string, rawString_chars (chars_of_unescape h), Option.bind_some]
  simp only [h]
  rfl

/-! ## Numbers -/

/-- A text goes on with what is not in a number, or ends. -/
def Ends (rest : Bytes) : Prop := ∀ b ∈ rest.head?, inNumber b = false

theorem ends_cons (h : inNumber b = false) : Ends (b :: rest) := by
  intro c hc
  rw [← Option.some.inj hc]
  exact h

theorem inNumber_of_isDigit (h : isDigit b = true) : inNumber b = true := by
  rw [inNumber, h]
  rfl

theorem inNumber_of_digits (h : s.all isDigit = true) : ∀ b ∈ s, inNumber b = true :=
  fun b hb => inNumber_of_isDigit (List.all_eq_true.mp h b hb)

theorem inNumber_takeWhile (s : Bytes) : ∀ b ∈ s.takeWhile isDigit, inNumber b = true :=
  fun _ hb => inNumber_of_isDigit (List.mem_takeWhile_imp hb)

/-- What is in a text is what is in two parts of it. -/
theorem inNumber_split (s : Bytes) (h : ∀ b ∈ s.dropWhile isDigit, inNumber b = true) :
    ∀ b ∈ s, inNumber b = true := by
  rw [← List.takeWhile_append_dropWhile (p := isDigit) (l := s)]
  exact List.forall_mem_append.mpr ⟨inNumber_takeWhile s, h⟩

theorem inNumber_of_isExponent (h : isExponent s = true) : ∀ b ∈ s, inNumber b = true := by
  cases s with
  | nil => exact List.forall_mem_nil _
  | cons b s =>
      simp only [isExponent, Bool.and_eq_true, Bool.or_eq_true, decide_eq_true_eq] at h
      obtain ⟨⟨he, -⟩, hdigits⟩ := h
      have hb : inNumber b = true := by rcases he with rfl | rfl <;> rfl
      refine List.forall_mem_cons.mpr ⟨hb, ?_⟩
      split at hdigits
      · next hsign =>
          cases s with
          | nil => exact List.forall_mem_nil _
          | cons c s =>
              simp only [List.head?_cons, Option.some.injEq] at hsign
              have hc : inNumber c = true := by rcases hsign with rfl | rfl <;> rfl
              exact List.forall_mem_cons.mpr ⟨hc, inNumber_of_digits hdigits⟩
      · exact inNumber_of_digits hdigits

theorem inNumber_of_isFraction (h : isFraction s = true) : ∀ b ∈ s, inNumber b = true := by
  unfold isFraction at h
  split at h
  · next s =>
      rw [Bool.and_eq_true] at h
      exact List.forall_mem_cons.mpr ⟨rfl, inNumber_split s (inNumber_of_isExponent h.2)⟩
  · exact inNumber_of_isExponent h

theorem inNumber_of_isNumber (h : isNumber s = true) : ∀ b ∈ s, inNumber b = true := by
  have hunsigned : ∀ {s : Bytes}, isUnsigned s = true → ∀ b ∈ s, inNumber b = true := by
    intro s h
    rw [isUnsigned, Bool.and_eq_true] at h
    exact inNumber_split s (inNumber_of_isFraction h.2)
  unfold isNumber at h
  split at h
  · next hsign =>
      obtain ⟨s, rfl⟩ := List.head?_eq_some_iff.mp hsign
      exact List.forall_mem_cons.mpr ⟨rfl, hunsigned h⟩
  · exact hunsigned h

theorem takeWhile_ends (h : Ends rest) : rest.takeWhile inNumber = [] := by
  cases rest with
  | nil => rfl
  | cons b rest => exact List.takeWhile_cons_of_neg (Bool.eq_false_iff.mp (h b rfl))

theorem dropWhile_ends (h : Ends rest) : rest.dropWhile inNumber = rest := by
  cases rest with
  | nil => rfl
  | cons b rest => exact List.dropWhile_cons_of_neg (Bool.eq_false_iff.mp (h b rfl))

theorem number_append (h : isNumber s = true) (hrest : Ends rest) :
    number (s ++ rest) = some (s, rest) := by
  have hall := inNumber_of_isNumber h
  have htake : (s ++ rest).takeWhile inNumber = s := by
    rw [List.takeWhile_append_of_pos hall, takeWhile_ends hrest, List.append_nil]
  have hdrop : (s ++ rest).dropWhile inNumber = rest := by
    rw [List.dropWhile_append_of_pos hall, dropWhile_ends hrest]
  rw [number, htake, hdrop, if_pos h]

/-! ## Lists -/

theorem length_le_join {x : Bytes} {xs : List Bytes} (hx : x ∈ xs) :
    x.length ≤ (join [44] xs).length := by
  induction xs with
  | nil => cases hx
  | cons y xs ih =>
      cases xs with
      | nil =>
          rw [List.mem_singleton.mp hx]
          exact Nat.le_refl _
      | cons z xs =>
          rw [join, List.length_append, List.length_append]
          rcases List.mem_cons.mp hx with rfl | hx
          · omega
          · have := ih hx
            omega

/-- There are no more texts than bytes in them. -/
theorem count_le_join {xs : List Bytes} (h : ∀ x ∈ xs, x ≠ []) :
    xs.length ≤ (join [44] xs).length := by
  induction xs with
  | nil => exact Nat.le_refl 0
  | cons y xs ih =>
      obtain ⟨hy, hxs⟩ := List.forall_mem_cons.mp h
      have hpos := List.length_pos_of_ne_nil hy
      cases xs with
      | nil => exact hpos
      | cons z xs =>
          have := ih hxs
          rw [join, List.length_append, List.length_append, List.length_cons]
          omega

section Lists

variable {item : Reader α} {close : UInt8} {n : Nat} {as : List (α × Bytes)}

/-- Items are read one after another if each is, before a comma and before the bracket. -/
theorem sequence_join (hclose : close ≠ 44) (hne : as ≠ []) (hn : as.length ≤ n)
    (h : ∀ a ∈ as, ∀ b rest, b = 44 ∨ b = close → item (a.2 ++ b :: rest) = some (a.1, b :: rest)) :
    sequence item close n (join [44] (as.map (·.2)) ++ close :: rest)
      = some (as.map (·.1), rest) := by
  induction as generalizing n with
  | nil => exact absurd rfl hne
  | cons a as ih =>
      obtain ⟨ha, has⟩ := List.forall_mem_cons.mp h
      obtain ⟨n, rfl⟩ := Nat.exists_eq_add_one.mpr (Nat.lt_of_lt_of_le (Nat.zero_lt_succ _) hn)
      cases as with
      | nil =>
          rw [List.map_singleton, List.map_singleton, join, sequence, ha close rest (Or.inr rfl),
            Option.bind_some]
          exact if_pos rfl
      | cons a' as =>
          have hrest := ih (List.cons_ne_nil _ _) (Nat.le_of_succ_le_succ hn) has
          rw [List.map_cons, List.map_cons] at hrest ⊢
          rw [List.map_cons, List.map_cons, join, List.append_assoc, List.append_assoc,
            List.singleton_append, sequence, ha 44 _ (Or.inl rfl), Option.bind_some]
          simp only [if_neg hclose.symm, if_true, hrest]
          rfl

theorem items_join (item : Reader α) (close : UInt8) (as : List (α × Bytes)) (rest : Bytes)
    (hclose : close ≠ 44) (hn : as.length ≤ n)
    (hfirst : ∀ a ∈ as, ∃ b t, a.2 = b :: t ∧ b ≠ close)
    (h : ∀ a ∈ as, ∀ b rest, b = 44 ∨ b = close → item (a.2 ++ b :: rest) = some (a.1, b :: rest)) :
    items item close n (join [44] (as.map (·.2)) ++ close :: rest) = some (as.map (·.1), rest) := by
  cases as with
  | nil => exact if_pos rfl
  | cons a as =>
      obtain ⟨b, t, hb, hne⟩ := hfirst a List.mem_cons_self
      have hhead : (join [44] ((a :: as).map (·.2)) ++ close :: rest).head? = some b := by
        cases as with
        | nil => rw [List.map_singleton, join, hb]; rfl
        | cons a' as => rw [List.map_cons, List.map_cons, join, hb]; rfl
      rw [items, hhead, if_neg (fun heq => hne (Option.some.inj heq))]
      exact sequence_join hclose (List.cons_ne_nil _ _) hn h

end Lists

/-! ## Values -/

/-- The first byte of a value closes no list. -/
theorem Prints.first {v : Value} (h : Prints v t) : ∃ b s, t = b :: s ∧ b ≠ 93 ∧ b ≠ 125 := by
  cases h with
  | str h => exact ⟨34, _, rfl, by decide, by decide⟩
  | arr vs h => exact ⟨91, _, rfl, by decide, by decide⟩
  | obj ms hkeys h => exact ⟨123, _, rfl, by decide, by decide⟩
  | num h =>
      have hall := inNumber_of_isNumber h
      cases t with
      | nil => exact absurd h (by decide)
      | cons b s =>
          have hb := hall b List.mem_cons_self
          refine ⟨b, s, rfl, ?_, ?_⟩ <;> rintro rfl <;> exact absurd hb (by decide)

theorem member_raw {key : Bytes} {v : Value} {read : Reader Value} (hkey : unescape raw = some key)
    (hv : read (t ++ rest) = some (v, rest)) :
    member read (quote raw ++ 58 :: t ++ rest) = some ((key, v), rest) := by
  have htext : quote raw ++ 58 :: t ++ rest = 34 :: (raw ++ 34 :: 58 :: (t ++ rest)) := by
    simp [quote]
  rw [htext, member, string_raw hkey, Option.bind_some]
  simp only [hv]
  rfl

/-- A value is read where it stands before a comma or a bracket. -/
def ReadAt (n : Nat) (v : Value) (t : Bytes) : Prop :=
  ∀ rest, Ends rest → value n (t ++ rest) = some (v, rest)

theorem value_arr {n : Nat} {vs : List (Value × Bytes)} (h : ∀ v ∈ vs, Prints v.1 v.2)
    (hn : (join [44] (vs.map (·.2))).length ≤ n) (hread : ∀ v ∈ vs, ReadAt n v.1 v.2) :
    value (n + 1) (91 :: join [44] (vs.map (·.2)) ++ [93] ++ rest)
      = some (.arr (vs.map (·.1)), rest) := by
  have hcount : vs.length ≤ n := by
    have hne : ∀ x ∈ vs.map (·.2), x ≠ [] := by
      intro x hx
      obtain ⟨v, hv, rfl⟩ := List.mem_map.mp hx
      obtain ⟨b, s, hb, -⟩ := (h v hv).first
      exact hb ▸ List.cons_ne_nil b s
    have := count_le_join hne
    rw [List.length_map] at this
    omega
  have hfirst : ∀ v ∈ vs, ∃ b t, v.2 = b :: t ∧ b ≠ 93 := by
    intro v hv
    obtain ⟨b, s, hb, hne, -⟩ := (h v hv).first
    exact ⟨b, s, hb, hne⟩
  have hitems := items_join (value n) 93 vs rest (by decide) hcount hfirst fun v hv b rest hb => by
    refine hread v hv _ ?_
    rcases hb with rfl | rfl <;> exact ends_cons rfl
  rw [List.append_assoc, List.singleton_append, List.cons_append, value, if_neg (by decide),
    if_pos rfl, hitems]
  rfl

theorem value_obj {n : Nat} {ms : List ((Bytes × Bytes) × Value × Bytes)}
    (hkeys : ∀ m ∈ ms, unescape m.1.2 = some m.1.1)
    (hn : (join [44] (ms.map fun m => quote m.1.2 ++ 58 :: m.2.2)).length ≤ n)
    (hread : ∀ m ∈ ms, ReadAt n m.2.1 m.2.2) :
    value (n + 1) (123 :: join [44] (ms.map fun m => quote m.1.2 ++ 58 :: m.2.2) ++ [125] ++ rest)
      = some (.obj (ms.map fun m => (m.1.1, m.2.1)), rest) := by
  -- the members with their texts, as the items of a list
  let texts := ms.map fun m => ((m.1.1, m.2.1), quote m.1.2 ++ 58 :: m.2.2)
  have hcount : texts.length ≤ n := by
    have hne : ∀ x ∈ ms.map (fun m => quote m.1.2 ++ 58 :: m.2.2), x ≠ [] := by
      intro x hx
      obtain ⟨m, hm, rfl⟩ := List.mem_map.mp hx
      exact List.append_ne_nil_of_left_ne_nil (List.cons_ne_nil _ _) _
    have := count_le_join hne
    rw [List.length_map] at this ⊢
    omega
  have hfirst : ∀ a ∈ texts, ∃ b t, a.2 = b :: t ∧ b ≠ 125 := by
    intro a ha
    obtain ⟨m, hm, rfl⟩ := List.mem_map.mp ha
    exact ⟨34, _, rfl, by decide⟩
  have hitems := items_join (member (value n)) 125 texts rest (by decide) hcount hfirst
    fun a ha b rest hb => by
      obtain ⟨m, hm, rfl⟩ := List.mem_map.mp ha
      refine member_raw (hkeys m hm) (hread m hm _ ?_)
      rcases hb with rfl | rfl <;> exact ends_cons rfl
  rw [List.map_map, List.map_map] at hitems
  rw [List.append_assoc, List.singleton_append, List.cons_append, value, if_neg (by decide),
    if_neg (by decide), if_pos rfl]
  exact congrArg (Option.map fun (ms, rest) => (Value.obj ms, rest)) hitems

/-- What stands for a value is read as that value, and no further. -/
theorem value_prints {v : Value} (h : Prints v t) : ∀ n, t.length < n → ReadAt n v t := by
  induction h with
  | @str raw s h =>
      intro n hn rest hrest
      obtain ⟨n, rfl⟩ := Nat.exists_eq_add_one.mpr (Nat.zero_lt_of_lt hn)
      have htext : quote raw ++ rest = 34 :: (raw ++ 34 :: rest) := by simp [quote]
      rw [htext, value, if_pos rfl, string_raw h]
      rfl
  | @num s h =>
      intro n hn rest hrest
      obtain ⟨n, rfl⟩ := Nat.exists_eq_add_one.mpr (Nat.zero_lt_of_lt hn)
      have hread := number_append h hrest
      have hall := inNumber_of_isNumber h
      cases s with
      | nil => exact absurd h (by decide)
      | cons b s =>
          have hb := hall b List.mem_cons_self
          have hother : ∀ c, inNumber c = false → b ≠ c := by
            rintro c hc rfl
            rw [hb] at hc
            cases hc
          rw [List.cons_append] at hread ⊢
          rw [value, if_neg (hother 34 rfl), if_neg (hother 91 rfl), if_neg (hother 123 rfl), hread]
          rfl
  | arr vs h ih =>
      intro n hn rest hrest
      obtain ⟨n, rfl⟩ := Nat.exists_eq_add_one.mpr (Nat.zero_lt_of_lt hn)
      rw [List.length_append, List.length_cons, List.length_singleton] at hn
      refine value_arr h (by omega) fun v hv => ih v hv n ?_
      have := length_le_join (List.mem_map_of_mem (f := (·.2)) hv)
      omega
  | obj ms hkeys h ih =>
      intro n hn rest hrest
      obtain ⟨n, rfl⟩ := Nat.exists_eq_add_one.mpr (Nat.zero_lt_of_lt hn)
      rw [List.length_append, List.length_cons, List.length_singleton] at hn
      refine value_obj hkeys (by omega) fun m hm => ih m hm n ?_
      have := length_le_join (List.mem_map_of_mem (f := fun m => quote m.1.2 ++ 58 :: m.2.2) hm)
      rw [List.length_append, List.length_cons] at this
      omega

/-! ## Writing -/

/-- The bytes of a text stand for themselves in a string. -/
def Unescaped (s : Bytes) : Prop := ∀ b ∈ s, ¬(b < 32 ∨ b = 34 ∨ b = 92)

instance decidableUnescaped (s : Bytes) : Decidable (Unescaped s) :=
  List.decidableBAll _ s

theorem unescape_self (h : Unescaped s) : unescape s = some s := by
  induction s with
  | nil => rfl
  | cons b s ih =>
      obtain ⟨hb, hs⟩ := List.forall_mem_cons.mp h
      rw [unescape_plain hb, ih hs]
      rfl

theorem unescaped_append (hs : Unescaped s) (ht : Unescaped t) : Unescaped (s ++ t) :=
  List.forall_mem_append.mpr ⟨hs, ht⟩

theorem unescaped_digits (n : Nat) : Unescaped (digits 10 n) := by
  intro b hb
  have hdigit := isDigit_iff.mp (digits_isDigit n b hb)
  rintro (hlt | rfl | rfl)
  · exact absurd (UInt8.lt_of_lt_of_le hlt (UInt8.le_trans (by decide) hdigit.1))
      (UInt8.lt_irrefl b)
  · exact absurd hdigit.1 (by decide)
  · exact absurd hdigit.2 (by decide)

theorem isUnsigned_digits (n : Nat) : isUnsigned (digits 10 n) = true := by
  have htake : (digits 10 n).takeWhile isDigit = digits 10 n :=
    List.takeWhile_eq_self_iff.mpr (digits_isDigit n)
  have hdrop : (digits 10 n).dropWhile isDigit = [] :=
    List.dropWhile_eq_nil_iff.mpr (digits_isDigit n)
  rw [isUnsigned, htake, hdrop, Bool.and_eq_true]
  refine ⟨?_, rfl⟩
  rcases Nat.eq_zero_or_pos n with rfl | hpos
  · rfl
  · simp [digits_ne_nil, head?_digits hpos]

theorem isNumber_intText (n : Int) : isNumber (intText n) = true := by
  unfold isNumber intText
  split
  · exact isUnsigned_digits _
  · rw [if_neg]
    · exact isUnsigned_digits _
    · intro hsign
      have := digits_isDigit _ 45 (List.mem_of_mem_head? hsign)
      exact absurd this (by decide)

/-- An object whose keys stand for themselves. -/
theorem prints_obj (ms : List (Bytes × Value × Bytes)) (hkeys : ∀ m ∈ ms, Unescaped m.1)
    (h : ∀ m ∈ ms, Prints m.2.1 m.2.2) : Prints (.obj (ms.map fun m => (m.1, m.2.1)))
      (123 :: join [44] (ms.map fun m => quote m.1 ++ 58 :: m.2.2) ++ [125]) := by
  have hobj := Prints.obj (ms.map fun m => ((m.1, m.1), m.2))
    (List.forall_mem_map.mpr fun m hm => unescape_self (hkeys m hm))
    (List.forall_mem_map.mpr h)
  rw [List.map_map, List.map_map] at hobj
  exact hobj

/-- A list of strings. -/
theorem prints_strings (ss : List (Bytes × Bytes)) (h : ∀ s ∈ ss, unescape s.2 = some s.1) :
    Prints (.arr (ss.map fun s => .str s.1))
      (91 :: join [44] (ss.map fun s => quote s.2) ++ [93]) := by
  have harr := Prints.arr (ss.map fun s => (Value.str s.1, quote s.2))
    (List.forall_mem_map.mpr fun s hs => .str (h s hs))
  rw [List.map_map, List.map_map] at harr
  exact harr

/-- A text that stands for a value is read as that value. -/
theorem parse_prints {v : Value} (h : Prints v t) : parse t = some v := by
  have hread := value_prints h (t.length + 1) (Nat.lt_succ_self _) [] (fun b hb => by cases hb)
  rw [List.append_nil] at hread
  rw [parse, hread]

end Tracep.Json
