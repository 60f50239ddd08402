import Tracep.Ca.Url
import Tracep.Lib.Scanf

/-!
# Fetching a certificate

`fetch_der_cert` requests a URL of a certificate and follows up to ten
redirects. What the servers answer is a parameter. Each URL is taken apart
before it is requested, and once more if the answer is a redirect without a
scheme, so all is well in memory as long as the parts of the URLs that are
visited fit (`fetchDerCert_faults_iff`).
-/

namespace Tracep.Ca

open Exec

/-! ## One request -/

/-- What comes back for a request to a host and a port, with TLS or without, if it can be sent. -/
abbrev Server := Bool → Bytes → Int → Bytes → Option Bytes

structure Response where
  status : Int
  location : Bytes
  body : Bytes

/-- `GET`, ` HTTP/1.1` and what follows the host. -/
def request (path host : Bytes) : Bytes :=
  [71, 69, 84, 32] ++ path
    ++ [32, 72, 84, 84, 80, 47, 49, 46, 49, 13, 10, 72, 111, 115, 116, 58, 32] ++ host
    ++ [13, 10, 85, 115, 101, 114, 45, 65, 103, 101, 110, 116, 58, 32, 116, 114, 97, 99, 101, 112,
      13, 10, 65, 99, 99, 101, 112, 116, 58, 32, 42, 47, 42,
      13, 10, 67, 111, 110, 110, 101, 99, 116, 105, 111, 110, 58, 32, 99, 108, 111, 115, 101,
      13, 10, 13, 10]

/-- The lines that end with CR LF. -/
def crlfLines : Bytes → List Bytes
  | [] => []
  | 13 :: 10 :: s => [] :: crlfLines s
  | b :: s =>
      match crlfLines s with
      | [] => []
      | line :: lines => (b :: line) :: lines

/-- Letters of ASCII in lower case. -/
def lower (s : Bytes) : Bytes := s.map fun b => if 65 ≤ b ∧ b ≤ 90 then b + 32 else b

/-- The last `Location` of the header, in a buffer of `cap` bytes. -/
def locationOf (cap : Nat) (header : Bytes) : Bytes :=
  (crlfLines header).foldl
    (fun location line =>
      if lower (line.take 9) = [108, 111, 99, 97, 116, 105, 111, 110, 58] then
        ((line.drop 9).dropWhile fun b => b = 32 || b = 9).take (cap - 1)
      else location) []

/-- `HTTP/%*d.%*d %d`, with and without the minor version. -/
def statusFormats : List (List Scanf.Directive) :=
  let version := [.literal 72, .literal 84, .literal 84, .literal 80, .literal 47, .int false]
  [version ++ [.literal 46, .int false, .blank, .int true], version ++ [.blank, .int true]]

def statusOf (raw : Bytes) : Int :=
  (statusFormats.findSome? fun format =>
    match Scanf.sscanf format (cstr raw) with
    | [.int n] => some (int32 n)
    | _ => none).getD 0

/-- What is made of the bytes that came back. -/
def readResponse (cap : Nat) (raw : Bytes) : Option Response :=
  if raw = [] then none
  else
    match cut [13, 10, 13, 10] (cstr raw) with
    | none => none
    | some (header, _) =>
        some ⟨statusOf raw, locationOf cap (header ++ [13, 10]), raw.drop (header.length + 4)⟩

variable (server : Server) (mem : UrlBuffers)

/-- `http_get_once`, with a `location` of `loccap` bytes. -/
def httpGetOnce (loccap : Nat) (url : Bytes) : Exec (Option Response) := do
  match ← mem.split url with
  | none => return none
  | some parts =>
      let tls : Bool := cstr parts.scheme = https
      let host := cstr parts.host
      match server tls host parts.port (request (cstr parts.path) host) with
      | none => return none
      | some raw => return readResponse loccap raw

/-! ## Redirects -/

/-- The URL of a redirect from `cur`, if `cur` can be taken apart. -/
def redirectUrl (cur loc : Bytes) : Exec (Option Bytes) :=
  match cut schemeEnd loc with
  | some _ => return some (fitted 2048 loc)
  | none => do
      match ← mem.split cur with
      | none => return none
      | some parts =>
          let base := cstr parts.scheme ++ schemeEnd ++ cstr parts.host ++ 58 :: intText parts.port
          let slash : Bytes := if loc.head? = some 47 then [] else [47]
          return some (fitted 2048 (base ++ slash ++ loc))

/-- The answer says to look elsewhere. -/
def Response.redirects (r : Response) : Bool :=
  300 ≤ r.status && r.status < 400 && r.location ≠ []

/-- The requests, as many as are left, after one that gave `body`. -/
def fetchHops : Nat → Bytes → Bytes → Exec (Option Bytes)
  | 0, body, _ => return some body
  | hops + 1, _, cur => do
      match ← httpGetOnce server mem 2048 cur with
      | none => return none
      | some r =>
          if r.redirects then
            match ← redirectUrl mem cur r.location with
            | none => return some r.body
            | some next => fetchHops hops r.body next
          else return some r.body

/-- The URL in the buffer `cur`. -/
def firstUrl (url : Bytes) : Bytes := fitted 2048 (cstr url)

/-- `fetch_der_cert`, with the ways of OpenSSL to read a certificate. -/
def fetchDerCert {χ : Type} (d2i pemRead : Bytes → Option χ) (url : Bytes) : Exec (Option χ) := do
  match ← fetchHops server mem 10 [] (firstUrl url) with
  | none => return none
  | some body => if body = [] then return none else return (d2i body).or (pemRead body)

/-! ## The URLs of a run -/

/-- A run goes on from a URL to the next. -/
def Follows (cur next : Bytes) : Prop :=
  ∃ r, (httpGetOnce server mem 2048 cur).Returns (some r) ∧ r.redirects = true
    ∧ (redirectUrl mem cur r.location).Returns (some next)

/-- The URL that is visited after `k` redirects. -/
inductive Visits (first : Bytes) : Nat → Bytes → Prop where
  | first : Visits first 0 first
  | next {k : Nat} {cur next : Bytes} : Visits first k cur → Follows server mem cur next →
      Visits first (k + 1) next

section Run

variable {server mem} {cur next first url u : Bytes} {k : Nat}

/-- The first redirect, and the run from there. -/
theorem visits_succ_iff :
    Visits server mem first (k + 1) u
      ↔ ∃ next, Follows server mem first next ∧ Visits server mem next k u := by
  constructor
  · intro h
    induction k generalizing u with
    | zero =>
        obtain _ | ⟨⟨⟩, hnext⟩ := h
        exact ⟨u, hnext, .first⟩
    | succ k ih =>
        obtain _ | ⟨hcur, hnext⟩ := h
        obtain ⟨second, hsecond, hrest⟩ := ih hcur
        exact ⟨second, hsecond, .next hrest hnext⟩
  · rintro ⟨second, hsecond, h⟩
    induction h with
    | first => exact .next .first hsecond
    | next _ hnext ih => exact .next ih hnext

theorem httpGetOnce_faults_iff {loccap : Nat} :
    (httpGetOnce server mem loccap url).Faults ↔ ¬Fits url := by
  rw [httpGetOnce, faults_bind, mem.split_faults_iff]
  refine or_iff_left ?_
  rintro ⟨parts, -, hrest⟩
  cases parts with
  | none => exact not_faults_pure hrest
  | some parts =>
      dsimp only at hrest
      split at hrest <;> exact not_faults_pure hrest

theorem fits_of_redirectUrl_faults (h : (redirectUrl mem cur u).Faults) : ¬Fits cur := by
  unfold redirectUrl at h
  split at h
  · exact absurd h not_faults_pure
  · rw [faults_bind, mem.split_faults_iff] at h
    refine h.resolve_right ?_
    rintro ⟨parts, -, hrest⟩
    cases parts <;> exact not_faults_pure hrest

/-- A request is made for each URL that is visited, and for no other. -/
theorem fetchHops_faults_iff {hops : Nat} {body : Bytes} :
    (fetchHops server mem hops body cur).Faults
      ↔ ∃ k < hops, ∃ u, Visits server mem cur k u ∧ ¬Fits u := by
  induction hops generalizing body cur with
  | zero => exact iff_of_false not_faults_pure nofun
  | succ hops ih =>
      rw [fetchHops, faults_bind, httpGetOnce_faults_iff]
      constructor
      · rintro (hcur | ⟨response, hget, hrest⟩)
        · exact ⟨0, hops.succ_pos, cur, .first, hcur⟩
        · cases response with
          | none => exact absurd hrest not_faults_pure
          | some r =>
              dsimp only at hrest
              by_cases hr : r.redirects = true
              · rw [if_pos hr, faults_bind] at hrest
                rcases hrest with hnext | ⟨next, hnext, hrest⟩
                · exact ⟨0, hops.succ_pos, cur, .first, fits_of_redirectUrl_faults hnext⟩
                · cases next with
                  | none => exact absurd hrest not_faults_pure
                  | some next =>
                      obtain ⟨k, hk, u, hu, hfits⟩ := ih.mp hrest
                      have hvisits := visits_succ_iff.mpr ⟨next, ⟨r, hget, hr, hnext⟩, hu⟩
                      exact ⟨k + 1, Nat.succ_lt_succ hk, u, hvisits, hfits⟩
              · rw [if_neg hr] at hrest
                exact absurd hrest not_faults_pure
      · rintro ⟨k, hk, u, hu, hfits⟩
        cases k with
        | zero =>
            cases hu
            exact Or.inl hfits
        | succ k =>
            obtain ⟨next, ⟨r, hget, hr, hnext⟩, hu⟩ := visits_succ_iff.mp hu
            refine Or.inr ⟨some r, hget, ?_⟩
            dsimp only
            rw [if_pos hr, hnext.faults_bind_iff]
            exact ih.mpr ⟨k, Nat.lt_of_succ_lt_succ hk, u, hu, hfits⟩

end Run

/-! ## What is written -/

/-- Buffers on the stack, with something in them. -/
def staleBuffers : UrlBuffers where
  scheme := List.replicate 16 85
  host := List.replicate 256 85
  path := List.replicate 1024 85
  scheme_length := List.length_replicate
  host_length := List.length_replicate
  path_length := List.length_replicate

/-- `aaaaaaaaaaaaaaaa://b`. -/
def longScheme : Bytes := List.replicate 16 97 ++ schemeEnd ++ [98]

/-- The NUL after a scheme of sixteen bytes is written past the buffer. -/
theorem fetchDerCert_overruns :
    ¬((¬(httpGetOnce (fun _ _ _ _ => none) staleBuffers 2048 longScheme).Faults)
      ∧ ¬(fetchDerCert (fun _ _ _ _ => none) staleBuffers (fun _ => (none : Option Unit))
        (fun _ => none) longScheme).Faults) := by
  rintro ⟨hget, -⟩
  refine hget (httpGetOnce_faults_iff.mpr fun hfits => ?_)
  have hcut : cut schemeEnd (cstr longScheme) = some (List.replicate 16 97, [98]) := by decide
  have hshort := (hfits _ _ hcut (by decide)).1
  exact absurd hshort (by decide)

/-- A request writes outside the buffers exactly when a part of its URL does not fit, and fetching a
certificate does when that is so of a URL it visits. -/
theorem fetchDerCert_faults_iff {χ : Type} (server : Server) (mem : UrlBuffers)
    (d2i pemRead : Bytes → Option χ) :
    (∀ loccap url, (httpGetOnce server mem loccap url).Faults ↔ ¬Fits url)
      ∧ ∀ url, (fetchDerCert server mem d2i pemRead url).Faults
        ↔ ∃ k < 10, ∃ u, Visits server mem (firstUrl url) k u ∧ ¬Fits u := by
  refine ⟨fun _ _ => httpGetOnce_faults_iff, fun url => ?_⟩
  rw [fetchDerCert, faults_bind, fetchHops_faults_iff]
  refine or_iff_left ?_
  rintro ⟨body, -, hrest⟩
  cases body with
  | none => exact not_faults_pure hrest
  | some body =>
      dsimp only at hrest
      split at hrest <;> exact not_faults_pure hrest

end Tracep.Ca
