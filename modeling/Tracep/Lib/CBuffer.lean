import Tracep.Lib.Bytes

/-!
# Writing into C buffers

A piece of memory of known size that a program writes text to. `storeAll` is
`memcpy` to an offset, `snprintf` writes as much of a text as the given size
allows, with its NUL; both fault where a byte would come to lie outside.

Text that is written from the front on is followed by what the memory held
before. `storeAll_append` and `store_append` write on at the end of the text.
-/

namespace Tracep

variable {α : Type}

/-- Overwrite the bytes from offset `i` on. -/
def storeAll (d : List α) (i : Int) (s : List α) : Exec (List α) :=
  if 0 ≤ i ∧ i + s.length ≤ d.length then
    pure (d.take i.toNat ++ s ++ d.drop (i.toNat + s.length))
  else .fault

/-- Write a text to a buffer that is said to have `cap` bytes. -/
def snprintf (d : Bytes) (cap : Nat) (text : Bytes) : Exec Bytes :=
  if cap = 0 then pure d else storeAll d 0 (text.take (cap - 1) ++ [0])

/-- Write a text to what begins at offset `i` of a buffer and is said to have `cap` bytes. -/
def snprintfAt (d : Bytes) (i : Int) (cap : Nat) (text : Bytes) : Exec Bytes :=
  if cap = 0 then pure d else storeAll d i (text.take (cap - 1) ++ [0])

/-- Copy a text to a buffer, with a NUL after it. -/
def copyText (d text : Bytes) : Exec Bytes := do
  let d ← storeAll d 0 text
  store d text.length 0

/-- The text that fits before its NUL. -/
def fitted (cap : Nat) (text : Bytes) : Bytes := text.take (cap - 1)

theorem storeAll_eq {d s : List α} {i : Int} (n : Nat) (hi : i = n)
    (h : n + s.length ≤ d.length) :
    storeAll d i s = pure (d.take n ++ s ++ d.drop (n + s.length)) := by
  subst hi
  rw [storeAll, if_pos ⟨by omega, by omega⟩]
  rfl

theorem storeAll_faults_iff {d s : List α} {i : Int} :
    (storeAll d i s).Faults ↔ ¬(0 ≤ i ∧ i + s.length ≤ d.length) := by
  unfold storeAll
  split
  · next h => exact iff_of_false Exec.not_faults_pure (not_not_intro h)
  · next h => exact iff_of_true Exec.faults_fault h

theorem store_faults_iff {d : List α} {i : Int} {b : α} :
    (store d i b).Faults ↔ ¬(0 ≤ i ∧ i < d.length) := by
  unfold store
  split
  · next h => exact iff_of_false Exec.not_faults_pure (not_not_intro h)
  · next h => exact iff_of_true Exec.faults_fault h

theorem length_of_storeAll {d d' s : List α} {i : Int} (h : (storeAll d i s).Returns d') :
    d'.length = d.length := by
  unfold storeAll at h
  split at h
  · next hin =>
      rw [Exec.returns_pure.mp h]
      simp only [List.length_append, List.length_take, List.length_drop]
      omega
  · exact absurd h Exec.not_returns_fault

/-! ## Text written from the front -/

variable {t r s : List α} {i : Int}

theorem storeAll_append (hi : i = t.length) (h : s.length ≤ r.length) :
    storeAll (t ++ r) i s = pure (t ++ s ++ r.drop s.length) := by
  rw [storeAll_eq t.length hi, List.take_left, ← List.drop_drop, List.drop_left]
  rw [List.length_append]
  omega

theorem store_append {b : α} (hi : i = t.length) (h : 0 < r.length) :
    store (t ++ r) i b = pure (t ++ [b] ++ r.drop 1) := by
  obtain ⟨x, r, rfl⟩ := List.exists_cons_of_length_pos h
  have hset : (t ++ x :: r).set t.length b = t ++ [b] ++ r := by
    rw [List.set_append_right _ _ (Nat.le_refl _), Nat.sub_self, List.set_cons_zero,
      List.append_assoc]
    rfl
  rw [store_eq t.length hi, hset]
  · rfl
  · rw [List.length_append, List.length_cons]
    omega

theorem snprintfAt_append {t r text : Bytes} {cap : Nat} (hcap : text.length < cap)
    (h : text.length < r.length) : snprintfAt (t ++ r) t.length cap text =
      pure (t ++ text ++ 0 :: r.drop (text.length + 1)) := by
  have hlen : (text ++ [0]).length = text.length + 1 := List.length_append
  rw [snprintfAt, if_neg (by omega), List.take_of_length_le (Nat.le_sub_one_of_lt hcap),
    storeAll_append rfl (by omega), hlen]
  simp only [List.append_assoc, List.singleton_append]

/-- There is no room for the NUL after a text that is as long as the buffer. -/
theorem copyText_faults_iff {d text : Bytes} :
    (copyText d text).Faults ↔ d.length ≤ text.length := by
  rw [copyText, Exec.faults_bind, storeAll_faults_iff]
  constructor
  · rintro (hall | ⟨d', hd', hnul⟩)
    · omega
    · rw [store_faults_iff, length_of_storeAll hd'] at hnul
      omega
  · intro hlen
    by_cases hroom : text.length ≤ d.length
    · have hcopy := storeAll_append (t := []) (i := 0) rfl hroom
      have hcopied : (storeAll d 0 text).Returns ([] ++ text ++ d.drop text.length) := by
        rw [← List.nil_append d, hcopy]
        exact Exec.returns_pure.mpr rfl
      refine Or.inr ⟨_, hcopied, store_faults_iff.mpr ?_⟩
      rw [length_of_storeAll hcopied]
      omega
    · exact Or.inl (by omega)

theorem copyText_eq {d text : Bytes} (h : text.length < d.length) :
    copyText d text = pure (text ++ 0 :: d.drop (text.length + 1)) := by
  have hcopy := storeAll_append (t := []) (i := 0) rfl (Nat.le_of_lt h)
  have hnul : 0 < (d.drop text.length).length := by
    rw [List.length_drop]
    omega
  rw [List.nil_append, List.nil_append] at hcopy
  rw [copyText, hcopy, pure_bind, store_append rfl hnul, List.drop_drop, List.append_assoc]
  rfl

/-- What is printed into a buffer of the size it is said to have. -/
theorem snprintf_eq {d text : Bytes} {cap : Nat} (hcap : 0 < cap) (h : cap ≤ d.length) :
    snprintf d cap text = pure (fitted cap text ++ 0 :: d.drop (fitted cap text).length.succ) := by
  have hlen : (text.take (cap - 1)).length ≤ cap - 1 := List.length_take_le _ _
  have hall : (text.take (cap - 1) ++ [0]).length ≤ d.length := by
    rw [List.length_append, List.length_singleton]
    omega
  have hstore := storeAll_append (t := []) (i := 0) rfl hall
  rw [List.nil_append, List.nil_append] at hstore
  rw [snprintf, if_neg (by omega), hstore, fitted, List.length_append, List.append_assoc]
  rfl

end Tracep
