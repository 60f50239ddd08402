import Tracep.Lib.Cut

/-!
# References to URIs

What a reference means at a base URI, as in section 5.2 of RFC 3986: what it
leaves out is taken from the base, a path that does not begin with a slash
takes the place of the last segment of the path of the base, and the segments
`.` and `..` are removed. A path without these is left as it is
(`removeDots_eq`), and so is one put together of two such (`dotless_append_iff`).

The authority may be of any type.
-/

namespace Tracep

/-- A URI without a fragment. -/
structure Uri (α : Type) where
  scheme : Bytes
  authority : Option α
  path : Bytes
  query : Option Bytes

/-- A URI, or what is left of one without its first components. -/
structure Reference (α : Type) where
  scheme : Option Bytes
  authority : Option α
  path : Bytes
  query : Option Bytes

/-! ## Paths -/

/-- `.` and `..`. -/
def IsDots (segment : Bytes) : Prop := segment = [46] ∨ segment = [46, 46]

instance decidableIsDots (segment : Bytes) : Decidable (IsDots segment) := inferInstanceAs (Decidable (_ ∨ _))

/-- A text without what begins at its last slash. -/
def dropSegment (s : Bytes) : Bytes := ((cutLast 47 s).map Prod.fst).getD []

/-- The segments with a slash before each, written behind what is there. -/
def addSegments (out : Bytes) : List Bytes → Bytes
  | [] => out
  | segment :: rest =>
      -- a `.` or `..` at the end leaves its slash
      if segment = [46] then if rest = [] then out ++ [47] else addSegments out rest
      else if segment = [46, 46] then
        if rest = [] then dropSegment out ++ [47] else addSegments (dropSegment out) rest
      else addSegments (out ++ 47 :: segment) rest

/-- The segments of a path, the first of them without a slash. -/
def addFirst : List Bytes → Bytes
  | [] => []
  | segment :: rest => if IsDots segment then addFirst rest else addSegments segment rest

/-- A path without its segments `.` and `..`. -/
def removeDots (path : Bytes) : Bytes := addFirst (path.splitOn 47)

/-- No segment is `.` or `..`. -/
def Dotless (path : Bytes) : Prop := ∀ segment ∈ path.splitOn 47, ¬IsDots segment

instance decidableDotless (path : Bytes) : Decidable (Dotless path) :=
  inferInstanceAs (Decidable (∀ segment ∈ path.splitOn 47, ¬IsDots segment))

theorem addSegments_eq {out : Bytes} {segments : List Bytes}
    (h : ∀ segment ∈ segments, ¬IsDots segment) :
    addSegments out segments = out ++ segments.flatMap (47 :: ·) := by
  induction segments generalizing out with
  | nil => exact (List.append_nil out).symm
  | cons segment rest ih =>
      obtain ⟨hsegment, hrest⟩ := List.forall_mem_cons.mp h
      obtain ⟨hdot, hdots⟩ := not_or.mp hsegment
      rw [addSegments, if_neg hdot, if_neg hdots, ih hrest, List.flatMap_cons, List.append_assoc]

theorem intercalate_cons_eq (segment : Bytes) (rest : List Bytes) :
    [47].intercalate (segment :: rest) = segment ++ rest.flatMap ((47 : UInt8) :: ·) := by
  induction rest generalizing segment with
  | nil => simp
  | cons next rest ih => rw [List.intercalate_cons_cons, ih]; simp

/-- There is nothing to remove. -/
theorem removeDots_eq {path : Bytes} (h : Dotless path) : removeDots path = path := by
  have hjoin : [47].intercalate (path.splitOn 47) = path := List.intercalate_splitOn 47
  unfold Dotless at h
  rw [removeDots]
  cases hsplit : path.splitOn 47 with
  | nil => exact absurd hsplit (List.splitOn_ne_nil _ _)
  | cons segment rest =>
      rw [hsplit] at h hjoin
      obtain ⟨hsegment, hrest⟩ := List.forall_mem_cons.mp h
      rw [addFirst, if_neg hsegment, addSegments_eq hrest, ← intercalate_cons_eq, hjoin]

theorem dotless_nil : Dotless [] := by
  intro segment hmem
  obtain rfl := List.mem_singleton.mp hmem
  decide

theorem dotless_append_iff {s t : Bytes} : Dotless (s ++ 47 :: t) ↔ Dotless s ∧ Dotless t := by
  rw [Dotless, List.splitOn_append_cons_self, List.forall_mem_append]
  rfl

/-! ## Resolution -/

/-- A path in the place of the last segment of the path of a base. -/
def mergePath {α : Type} (base : Uri α) (path : Bytes) : Bytes :=
  match cutLast 47 base.path with
  | some (before, _) => before ++ 47 :: path
  | none => if base.authority.isSome ∧ base.path = [] then 47 :: path else path

/-- What a reference means at a base. -/
def Uri.resolve {α : Type} (base : Uri α) (r : Reference α) : Uri α :=
  match r.scheme with
  | some scheme => ⟨scheme, r.authority, removeDots r.path, r.query⟩
  | none =>
      match r.authority with
      | some authority => ⟨base.scheme, some authority, removeDots r.path, r.query⟩
      | none =>
          if r.path = [] then ⟨base.scheme, base.authority, base.path, r.query.or base.query⟩
          else if r.path.head? = some 47 then
            ⟨base.scheme, base.authority, removeDots r.path, r.query⟩
          else ⟨base.scheme, base.authority, removeDots (mergePath base r.path), r.query⟩

section Resolve

variable {α : Type} {base : Uri α} {path : Bytes} {query : Option Bytes}

theorem resolve_scheme (scheme : Bytes) (authority : Option α) (h : Dotless path) :
    base.resolve ⟨some scheme, authority, path, query⟩ = ⟨scheme, authority, path, query⟩ :=
  congrArg (Uri.mk scheme authority · query) (removeDots_eq h)

theorem resolve_authority (authority : α) (h : Dotless path) :
    base.resolve ⟨none, some authority, path, query⟩ = ⟨base.scheme, some authority, path, query⟩ :=
  congrArg (Uri.mk base.scheme (some authority) · query) (removeDots_eq h)

theorem resolve_rooted (hrooted : path.head? = some 47) (h : Dotless path) :
    base.resolve ⟨none, none, path, query⟩ = ⟨base.scheme, base.authority, path, query⟩ := by
  have hne : path ≠ [] := List.ne_nil_of_mem (List.mem_of_mem_head? hrooted)
  simp only [Uri.resolve]
  rw [if_neg hne, if_pos hrooted, removeDots_eq h]

theorem resolve_merge (hne : path ≠ []) (hrelative : path.head? ≠ some 47)
    (h : Dotless (mergePath base path)) : base.resolve ⟨none, none, path, query⟩
      = ⟨base.scheme, base.authority, mergePath base path, query⟩ := by
  simp only [Uri.resolve]
  rw [if_neg hne, if_neg hrelative, removeDots_eq h]

end Resolve

end Tracep
