import Tracep.Lib.CBuffer
import Tracep.Lib.Cut
import Tracep.Lib.Decimal

/-!
# URLs taken apart

`url_split` copies the scheme, the host and the path of a URL to buffers of
its caller and is told the size of the last one only. A scheme or a host
that is shorter than that and longer than its own buffer is written past the
end (`urlSplit_faults_iff`), and the scheme is so before it is looked at.
-/

namespace Tracep.Ca

open Exec

/-- `http`, `https` and `://`. -/
def http : Bytes := [104, 116, 116, 112]
def https : Bytes := [104, 116, 116, 112, 115]
def schemeEnd : Bytes := [58, 47, 47]

/-- The buffers that a caller has on its stack, with whatever they hold. -/
structure UrlBuffers where
  scheme : Bytes
  host : Bytes
  path : Bytes
  scheme_length : scheme.length = 16
  host_length : host.length = 256
  path_length : path.length = 1024

/-- What `url_split` writes. -/
structure UrlParts where
  scheme : Bytes
  host : Bytes
  port : Int
  path : Bytes

/-- The text up to the first slash. -/
def authority (h : Bytes) : Bytes := h.takeWhile (· ≠ 47)

/-- The text from the first slash on. -/
def fromSlash (h : Bytes) : Bytes := h.dropWhile (· ≠ 47)

/-- What is taken for the host: the authority up to a colon. -/
def hostText (h : Bytes) : Bytes := (authority h).takeWhile (· ≠ 58)

/-- `url_split`. -/
def urlSplit (url scheme host path : Bytes) (cap : Nat) : Exec (Option UrlParts) :=
  match cut schemeEnd (cstr url) with
  | none => return none
  | some (s, h) =>
      if s.length ≥ cap then return none
      else do
        let scheme ← copyText scheme s
        if cstr scheme ≠ https ∧ cstr scheme ≠ http then return none
        else
          if (hostText h).length ≥ cap then return none
          else do
            let host ← copyText host (hostText h)
            let slash := fromSlash h
            -- the text after the colon, if there is one, goes on behind the slash
            let port := match (authority h).dropWhile (· ≠ 58) with
              | _ :: digits => Libc.atoi (digits ++ slash)
              | [] => if cstr scheme = https then 443 else 80
            let path ← snprintf path cap (if slash = [] then [47] else slash)
            return some ⟨scheme, host, port, path⟩

/-! ## Where it writes -/

section Split

variable {url scheme host path s h : Bytes} {cap : Nat}

theorem not_mem_cstr (d : Bytes) : 0 ∉ cstr d := by
  intro hmem
  have hzero := @List.mem_takeWhile_imp _ (fun b => decide (b ≠ 0)) _ _ hmem
  exact of_decide_eq_true hzero rfl

/-- The scheme in the buffer is that of the URL. -/
theorem cstr_scheme (hcut : cut schemeEnd (cstr url) = some (s, h)) (rest : Bytes) :
    cstr (s ++ 0 :: rest) = s := by
  rw [cstr_append_nul, cstr_of_noNul]
  intro hmem
  refine not_mem_cstr url ?_
  rw [cut_parts hcut]
  exact List.mem_append_left _ (List.mem_append_left _ hmem)

/-- A part that the check lets pass and that is as long as its buffer is written past the end. -/
theorem urlSplit_faults_iff (hcap : 0 < cap) (hpath : cap ≤ path.length) :
    (urlSplit url scheme host path cap).Faults
      ↔ ∃ s h, cut schemeEnd (cstr url) = some (s, h) ∧ s.length < cap
        ∧ (scheme.length ≤ s.length
          ∨ (s = https ∨ s = http) ∧ (hostText h).length < cap
            ∧ host.length ≤ (hostText h).length) := by
  unfold urlSplit
  cases hcut : cut schemeEnd (cstr url) with
  | none => exact iff_of_false not_faults_pure nofun
  | some parts =>
      obtain ⟨s, h⟩ := parts
      have hparts : ∀ P : Bytes → Bytes → Prop,
          (∃ s' h', some (s, h) = some (s', h') ∧ P s' h') ↔ P s h := by
        intro P
        constructor
        · rintro ⟨s', h', ⟨⟩, hP⟩
          exact hP
        · exact fun hP => ⟨s, h, rfl, hP⟩
      rw [hparts]
      dsimp only
      by_cases hlong : s.length ≥ cap
      · rw [if_pos hlong]
        exact iff_of_false not_faults_pure fun hP => Nat.not_lt.mpr hlong hP.1
      rw [if_neg hlong]
      by_cases hover : scheme.length ≤ s.length
      · refine iff_of_true ((copyText_faults_iff.mpr hover).bind _) ?_
        exact ⟨Nat.lt_of_not_le hlong, Or.inl hover⟩
      rw [copyText_eq (Nat.lt_of_not_le hover), pure_bind, cstr_scheme hcut]
      by_cases hother : s ≠ https ∧ s ≠ http
      · rw [if_pos hother]
        refine iff_of_false not_faults_pure ?_
        rintro ⟨-, hscheme | ⟨hscheme | hscheme, -⟩⟩
        · exact hover hscheme
        · exact hother.1 hscheme
        · exact hother.2 hscheme
      rw [if_neg hother]
      have hscheme : s = https ∨ s = http := by
        rcases not_and_or.mp hother with hs | hs
        · exact Or.inl (not_not.mp hs)
        · exact Or.inr (not_not.mp hs)
      by_cases hhost : (hostText h).length ≥ cap
      · rw [if_pos hhost]
        refine iff_of_false not_faults_pure ?_
        rintro ⟨-, hs | ⟨-, hlt, -⟩⟩
        · exact hover hs
        · exact Nat.not_lt.mpr hhost hlt
      rw [if_neg hhost]
      by_cases hfull : host.length ≤ (hostText h).length
      · refine iff_of_true ((copyText_faults_iff.mpr hfull).bind _) ?_
        exact ⟨Nat.lt_of_not_le hlong, Or.inr ⟨hscheme, Nat.lt_of_not_le hhost, hfull⟩⟩
      · rw [copyText_eq (Nat.lt_of_not_le hfull), pure_bind, snprintf_eq hcap hpath, pure_bind]
        refine iff_of_false not_faults_pure ?_
        rintro ⟨-, hs | ⟨-, -, hle⟩⟩
        · exact hover hs
        · exact hfull hle

end Split

/-! ## The URLs of which the parts fit -/

/-- `url_split`, told the size of `path`. -/
def UrlBuffers.split (mem : UrlBuffers) (url : Bytes) : Exec (Option UrlParts) :=
  urlSplit url mem.scheme mem.host mem.path 1024

/-- Each part fits into its buffer, or is given up. -/
def Fits (url : Bytes) : Prop :=
  ∀ s h, cut schemeEnd (cstr url) = some (s, h) → s.length < 1024 →
    s.length < 16
      ∧ (s = https ∨ s = http → (hostText h).length < 256 ∨ 1024 ≤ (hostText h).length)

theorem UrlBuffers.split_faults_iff (mem : UrlBuffers) (url : Bytes) :
    (mem.split url).Faults ↔ ¬Fits url := by
  rw [split, urlSplit_faults_iff (by decide) (Nat.le_of_eq mem.path_length.symm), mem.scheme_length,
    mem.host_length]
  constructor
  · rintro ⟨s, h, hcut, hlt, hover⟩ hfits
    obtain ⟨hs, hh⟩ := hfits s h hcut hlt
    rcases hover with hover | ⟨hscheme, hlong, hover⟩
    · exact Nat.not_lt.mpr hover hs
    · have := hh hscheme
      omega
  · intro hfits
    unfold Fits at hfits
    push Not at hfits
    obtain ⟨s, h, hcut, hlt, hover⟩ := hfits
    refine ⟨s, h, hcut, hlt, ?_⟩
    by_cases hs : s.length < 16
    · obtain ⟨hscheme, hfull, hlong⟩ := hover hs
      exact Or.inr ⟨hscheme, hlong, hfull⟩
    · exact Or.inl (Nat.le_of_not_lt hs)

/-- A URL with a scheme that is known and a host that fits is taken apart. -/
theorem UrlBuffers.split_returns (mem : UrlBuffers) {url s h : Bytes}
    (hcut : cut schemeEnd (cstr url) = some (s, h)) (hscheme : s = https ∨ s = http)
    (hhost : (hostText h).length < 256) : ∃ parts, (mem.split url).Returns (some parts) := by
  have hshort : s.length ≤ 5 := by rcases hscheme with rfl | rfl <;> decide
  have hs : s.length < mem.scheme.length := by
    rw [mem.scheme_length]
    omega
  have hknown : ¬(s ≠ https ∧ s ≠ http) := fun ⟨hnot, hnot'⟩ => hscheme.elim hnot hnot'
  rw [split, urlSplit, hcut]
  dsimp only
  rw [if_neg (by omega), copyText_eq hs, pure_bind, cstr_scheme hcut, if_neg hknown,
    if_neg (by omega), copyText_eq (by rwa [mem.host_length]), pure_bind,
    snprintf_eq (by decide) (Nat.le_of_eq mem.path_length.symm), pure_bind]
  exact ⟨_, returns_pure.mpr rfl⟩

/-! ## What is read off a URL -/

/-- Where a request goes, and what for. -/
structure Destination where
  scheme : Bytes
  host : Bytes
  port : Int
  path : Bytes
deriving DecidableEq

/-- The texts in the buffers. -/
def UrlParts.destination (parts : UrlParts) : Destination :=
  ⟨cstr parts.scheme, cstr parts.host, parts.port, cstr parts.path⟩

/-- The port of what follows the scheme. -/
def portOf (s h : Bytes) : Int :=
  match (authority h).dropWhile (· ≠ 58) with
  | _ :: digits => Libc.atoi (digits ++ fromSlash h)
  | [] => if s = https then 443 else 80

/-- What of a URL is requested, as long as it fits. -/
def pathOf (h : Bytes) : Bytes := fitted 1024 (if fromSlash h = [] then [47] else fromSlash h)

theorem cstr_text {t rest : Bytes} (h : 0 ∉ t) : cstr (t ++ 0 :: rest) = t := by
  rw [cstr_append_nul, cstr_of_noNul h]

theorem noNul_of_cut {url s h : Bytes} (hcut : cut schemeEnd (cstr url) = some (s, h)) : 0 ∉ h := by
  intro hmem
  refine not_mem_cstr url ?_
  rw [cut_parts hcut]
  exact List.mem_append_right _ hmem

theorem hostText_noNul {h : Bytes} (hh : 0 ∉ h) : 0 ∉ hostText h := fun hmem =>
  hh ((List.takeWhile_sublist _).subset ((List.takeWhile_sublist _).subset hmem))

theorem pathOf_noNul {h : Bytes} (hh : 0 ∉ h) : 0 ∉ pathOf h := by
  intro hmem
  have hmem := (List.take_sublist _ _).subset hmem
  split at hmem
  · exact absurd hmem (by decide)
  · exact hh ((List.dropWhile_sublist _).subset hmem)

theorem UrlBuffers.exists_cut (mem : UrlBuffers) {url : Bytes} {parts : UrlParts}
    (hret : (mem.split url).Returns (some parts)) :
    ∃ s h, cut schemeEnd (cstr url) = some (s, h) := by
  cases hcut : cut schemeEnd (cstr url) with
  | none =>
      rw [split, urlSplit, hcut] at hret
      cases returns_pure.mp hret
  | some parts => exact ⟨parts.1, parts.2, rfl⟩

/-- All that is read off a URL that is taken apart. -/
theorem UrlBuffers.split_destination (mem : UrlBuffers) {url s h : Bytes} {parts : UrlParts}
    (hcut : cut schemeEnd (cstr url) = some (s, h)) (hret : (mem.split url).Returns (some parts)) :
    (s = https ∨ s = http) ∧ (hostText h).length < 256
      ∧ parts.destination = ⟨s, hostText h, portOf s h, pathOf h⟩ := by
  have hfits : Fits url := by
    by_contra hnot
    exact hret.not_faults ((mem.split_faults_iff url).mpr hnot)
  rw [split, urlSplit, hcut] at hret
  dsimp only at hret
  by_cases hlong : s.length ≥ 1024
  · rw [if_pos hlong] at hret
    cases returns_pure.mp hret
  obtain ⟨hs, hhost⟩ := hfits s h hcut (Nat.lt_of_not_le hlong)
  rw [if_neg hlong, copyText_eq (by rwa [mem.scheme_length]), pure_bind, cstr_scheme hcut] at hret
  by_cases hother : s ≠ https ∧ s ≠ http
  · rw [if_pos hother] at hret
    cases returns_pure.mp hret
  have hscheme : s = https ∨ s = http := by
    by_contra hnot
    exact hother (not_or.mp hnot)
  by_cases hfull : (hostText h).length ≥ 1024
  · rw [if_neg hother, if_pos hfull] at hret
    cases returns_pure.mp hret
  have hroom : (hostText h).length < 256 := (hhost hscheme).resolve_right hfull
  rw [if_neg hother, if_neg hfull, copyText_eq (by rwa [mem.host_length]), pure_bind,
    snprintf_eq (by decide) (Nat.le_of_eq mem.path_length.symm), pure_bind] at hret
  obtain rfl := Option.some.inj (returns_pure.mp hret)
  refine ⟨hscheme, hroom, ?_⟩
  have hh := noNul_of_cut hcut
  rw [UrlParts.destination, cstr_scheme hcut, cstr_text (hostText_noNul hh)]
  exact congrArg _ (cstr_text (pathOf_noNul hh))

end Tracep.Ca
