import Mathlib.Data.Fintype.EquivFin
import Tracep.Dns.MainLoop
import Tracep.Lib.Trim

/-!
# The names of `-n`

`-n` takes process names with commas between them. Both ports split the value
at the commas, trim the parts and leave out the empty ones. But
`strings.TrimSpace` takes off all white space where `split_set` takes off
spaces and tabs, and `split_set` keeps at most `MAX_SET` names.

So both let the same events pass if what `split_set` keeps is trimmed and what
it has no room for is there already, and only then
(`nameFilters_agree_iff`).
-/

namespace Tracep.Dns

open Fields

/-- The same filters, but for the names. -/
def Filters.withNames (F : Filters) (names : List Bytes) : Filters := { F with names := names }

namespace Go

/-- `splitSet`: the keys of the map. -/
def splitSet (s : Bytes) : List Bytes := ((s.splitOn 44).map trimSpace).filter (· ≠ [])

end Go

namespace C

/-- `MAX_SET`. -/
def maxSet : Nat := 64

def isBlank (b : UInt8) : Bool := b == 32 || b == 9

/-- One more token of `split_set`, which does not change the case of the names. -/
def splitSetStep (set : List Bytes) (t : Bytes) : List Bytes :=
  let v := trimBytes isBlank t
  if v = [] ∨ set.length ≥ maxSet then set else set ++ [v]

/-- `split_set`, for names. -/
def splitSet (set : List Bytes) (s : Bytes) : List Bytes := (strtok [44] s).foldl splitSetStep set

end C

/-- The names that there are in a value, for `split_set`. -/
def namesOf (s : Bytes) : List Bytes :=
  ((strtok [44] s).map (trimBytes C.isBlank)).filter (· ≠ [])

variable {A B : List Bytes} {s v : Bytes}

theorem C.foldl_splitSetStep {ts : List Bytes} (h : A.length ≤ maxSet) :
    ts.foldl splitSetStep A
      = (A ++ (ts.map (trimBytes isBlank)).filter (· ≠ [])).take maxSet := by
  induction ts generalizing A with
  | nil => rw [List.map_nil, List.filter_nil, List.append_nil, List.take_of_length_le h]; rfl
  | cons t ts ih =>
      rw [List.foldl_cons, List.map_cons, splitSetStep]
      by_cases hnil : trimBytes isBlank t = []
      · rw [if_pos (Or.inl hnil), ih h, List.filter_cons_of_neg (by simpa using hnil)]
      · rw [List.filter_cons_of_pos (by simpa using hnil)]
        by_cases hfull : A.length ≥ maxSet
        · rw [if_pos (Or.inr hfull), ih h, List.take_append_of_le_length hfull,
            List.take_append_of_le_length hfull]
        · rw [if_neg (not_or.mpr ⟨hnil, hfull⟩), ih (by simp; omega), List.append_assoc]
          rfl

theorem C.splitSet_eq (s : Bytes) : C.splitSet [] s = (namesOf s).take maxSet :=
  foldl_splitSetStep (Nat.zero_le _)

theorem C.isSpace_of_isBlank (b : UInt8) (h : isBlank b = true) : Libc.isSpace b = true := by
  rcases (by simpa [isBlank] using h : b = 32 ∨ b = 9) with rfl | rfl <;> rfl

theorem ne_nil_of_mem_namesOf (h : v ∈ namesOf s) : v ≠ [] := by
  simpa using (List.mem_filter.mp h).2

/-- The Go names are the others, trimmed. -/
theorem Go.mem_splitSet_iff : v ∈ Go.splitSet s ↔ v ≠ [] ∧ ∃ t ∈ namesOf s, trimSpace t = v := by
  have htrim : ∀ part, trimSpace (trimBytes C.isBlank part) = trimSpace part :=
    trimSpace_trimBytes C.isSpace_of_isBlank
  rw [Go.splitSet, List.mem_filter, List.mem_map, decide_eq_true_iff, and_comm]
  refine and_congr_right fun hne => ⟨fun ⟨part, hpart, hv⟩ => ?_, fun ⟨t, ht, hv⟩ => ?_⟩
  · have hpart' : part ≠ [] := fun hnil => hne (by rw [← hv, hnil]; rfl)
    have ht : trimBytes C.isBlank part ≠ [] := fun hnil =>
      hne (by rw [← hv, ← htrim, hnil]; rfl)
    refine ⟨_, ?_, (htrim part).trans hv⟩
    rw [namesOf, strtok_single]
    exact List.mem_filter.mpr ⟨List.mem_map_of_mem (List.mem_filter.mpr
      ⟨hpart, by simpa using hpart'⟩), by simpa using ht⟩
  · rw [namesOf, strtok_single] at ht
    obtain ⟨part, hpart, rfl⟩ := List.mem_map.mp (List.mem_filter.mp ht).1
    exact ⟨part, (List.mem_filter.mp hpart).1, (htrim part).symm.trans hv⟩

theorem passes_withNames (F : Filters) (name : Bytes) (pid : Int) (qtype query : Bytes) :
    (F.withNames A).passes name pid qtype query
      = ((A.isEmpty || decide (name ∈ A)) && (F.pids.isEmpty || decide (pid ∈ F.pids))
        && (F.types.isEmpty || decide (qtype ∈ F.types))
        && (F.domain.isEmpty || decide (F.domain <:+: query))) := rfl

/-- Filters let the same pass only if they name the same. -/
theorem passes_eq_iff : (∀ (F : Filters) name pid qtype query,
      (F.withNames A).passes name pid qtype query = (F.withNames B).passes name pid qtype query)
    ↔ ∀ v, v ∈ A ↔ v ∈ B := by
  constructor
  · intro h
    have hname : ∀ v, (A = [] ∨ v ∈ A) ↔ (B = [] ∨ v ∈ B) := by
      intro v
      have hpasses := Bool.eq_iff_iff.mp (h ⟨[], [], [], []⟩ v 0 [] [])
      simpa [passes_withNames] using hpasses
    -- a name that no filter has
    obtain ⟨w, hw⟩ := Infinite.exists_notMem_finset (A ++ B).toFinset
    obtain ⟨hA, hB⟩ : w ∉ A ∧ w ∉ B := by simpa using hw
    have hempty : A = [] ↔ B = [] := by simpa [hA, hB] using hname w
    intro v
    by_cases hnil : A = []
    · rw [hnil, hempty.mp hnil]
    · have hnil' : B ≠ [] := fun h => hnil (hempty.mpr h)
      simpa [hnil, hnil'] using hname v
  · intro h F name pid qtype query
    have hempty : A.isEmpty = B.isEmpty := by
      rw [Bool.eq_iff_iff, List.isEmpty_iff, List.isEmpty_iff, List.eq_nil_iff_forall_not_mem,
        List.eq_nil_iff_forall_not_mem]
      exact forall_congr' fun v => not_congr (h v)
    simp only [passes_withNames, hempty, h name]

/-- With the same value of `-n` and any other filters, both ports let the same events pass exactly
when `TrimSpace` leaves the first `MAX_SET` names of `split_set` as they are, and makes of the
others nothing or one of these. -/
theorem nameFilters_agree_iff (s : Bytes) :
    (∀ (F : Filters) name pid qtype query,
      (F.withNames (C.splitSet [] s)).passes name pid qtype query
        = (F.withNames (Go.splitSet s)).passes name pid qtype query)
      ↔ (∀ t ∈ (namesOf s).take C.maxSet, trimSpace t = t)
        ∧ ∀ t ∈ (namesOf s).drop C.maxSet,
          trimSpace t = [] ∨ trimSpace t ∈ (namesOf s).take C.maxSet := by
  rw [passes_eq_iff, C.splitSet_eq]
  constructor
  · intro h
    refine ⟨fun t ht => ?_, fun t ht => ?_⟩
    · obtain ⟨-, t', -, rfl⟩ := Go.mem_splitSet_iff.mp ((h t).mp ht)
      exact trimSpace_trimSpace t'
    · by_cases hnil : trimSpace t = []
      · exact Or.inl hnil
      · exact Or.inr ((h _).mpr (Go.mem_splitSet_iff.mpr ⟨hnil, t, List.mem_of_mem_drop ht, rfl⟩))
  · intro ⟨hkept, hleft⟩ v
    rw [Go.mem_splitSet_iff]
    constructor
    · intro hv
      have hmem := List.mem_of_mem_take hv
      exact ⟨ne_nil_of_mem_namesOf hmem, v, hmem, hkept v hv⟩
    · rintro ⟨hne, t, ht, rfl⟩
      rw [← List.take_append_drop C.maxSet (namesOf s), List.mem_append] at ht
      rcases ht with ht | ht
      · rwa [hkept t ht]
      · exact (hleft t ht).resolve_left hne

end Tracep.Dns
