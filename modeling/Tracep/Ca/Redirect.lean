import Tracep.Ca.Fetch
import Tracep.Lib.Uri

/-!
# Where a redirect leads

`fetch_der_cert` takes a `Location` with `://` in it for a URL, and puts any
other behind the scheme, the host and the port of the URL it was at. That is
not what a reference means: one to another host is requested from the old one,
and a relative path is taken from the root and not from the directory of the
URL (`redirect_iff` says when the two agree).
-/

namespace Tracep.Ca

open Exec

/-! ## URLs and references -/

/-- A host that is a name, and a port if it is given. -/
structure Authority where
  host : Bytes
  port : Option Bytes
  host_plain : ∀ b ∈ host, b ∉ ([0, 35, 47, 58, 63, 64] : Bytes)
  port_digits : ∀ p ∈ port, p ≠ [] ∧ ∀ b ∈ p, isDigit b = true

/-- A path without dot segments, and a query if there is one. -/
structure Target where
  path : Bytes
  query : Option Bytes
  path_plain : ∀ b ∈ path, b ∉ ([0, 35, 63] : Bytes)
  query_plain : ∀ q ∈ query, ∀ b ∈ q, b ∉ ([0, 35] : Bytes)
  dotless : Dotless path

/-- The path is empty or begins with a slash. -/
def Target.Rooted (t : Target) : Prop := t.path = [] ∨ t.path.head? = some 47

structure Url where
  scheme : Bytes
  authority : Authority
  target : Target
  scheme_plain : ∀ b ∈ scheme, b ∉ ([0, 35, 47, 58, 63] : Bytes)
  rooted : target.Rooted

/-- What a `Location` may be: a URL, `//host/path`, `/path` or `path`. -/
inductive Location where
  | absolute (url : Url)
  | network (authority : Authority) (target : Target) (rooted : target.Rooted)
  | absPath (target : Target) (rooted : target.path.head? = some 47)
      (single : ¬[47, 47] <+: target.path)
  | relPath (target : Target) (relative : target.path.head? ≠ some 47)
      (plain : 58 ∉ target.path.takeWhile (· ≠ 47)) (present : target.path ≠ [] ∨ target.query.isSome)

def Authority.text (a : Authority) : Bytes :=
  a.host ++ match a.port with
    | some p => 58 :: p
    | none => []

/-- The query with its question mark. -/
def queryText : Option Bytes → Bytes
  | some q => 63 :: q
  | none => []

def Target.text (t : Target) : Bytes := t.path ++ queryText t.query

/-- What comes after `://`. -/
def Url.rest (u : Url) : Bytes := u.authority.text ++ u.target.text

def Url.text (u : Url) : Bytes := u.scheme ++ schemeEnd ++ u.rest

def Location.text : Location → Bytes
  | absolute url => url.text
  | network authority target _ => 47 :: 47 :: (authority.text ++ target.text)
  | absPath target _ _ => target.text
  | relPath target _ _ _ => target.text

def Url.uri (u : Url) : Uri Authority :=
  ⟨u.scheme, some u.authority, u.target.path, u.target.query⟩

def Location.reference : Location → Reference Authority
  | absolute url => ⟨some url.scheme, some url.authority, url.target.path, url.target.query⟩
  | network authority target _ => ⟨none, some authority, target.path, target.query⟩
  | absPath target _ _ => ⟨none, none, target.path, target.query⟩
  | relPath target _ _ _ => ⟨none, none, target.path, target.query⟩

/-! ## Requests -/

/-- The port of a scheme. -/
def defaultPort (scheme : Bytes) : Option Int :=
  if lower scheme = https then some 443 else if lower scheme = http then some 80 else none

/-- The port of an authority of a URL. -/
def Authority.portAt (a : Authority) (scheme : Bytes) : Option Int :=
  match a.port with
  | some p => some (digitsValue 0 p)
  | none => defaultPort scheme

/-- What is requested of a server. -/
def requestText (path : Bytes) (query : Option Bytes) : Bytes :=
  (if path = [] then [47] else path) ++ queryText query

/-- The request for a URI, if it has a host and a port. -/
def destinationOf (t : Uri Authority) : Option Destination := do
  let a ← t.authority
  let port ← a.portAt t.scheme
  return ⟨lower t.scheme, a.host, port, requestText t.path t.query⟩

/-- What `fetch_der_cert` requests after a redirect. -/
def Redirects (mem : UrlBuffers) (cur loc : Bytes) (d : Destination) : Prop :=
  ∃ next parts, (redirectUrl mem cur loc).Returns (some next)
    ∧ (mem.split next).Returns (some parts) ∧ parts.destination = d

/-- After a redirect, what is requested is what the reference means. -/
def Resolves (mem : UrlBuffers) (u : Url) (loc : Location) : Prop :=
  ∃ d, destinationOf (u.uri.resolve loc.reference) = some d ∧ Redirects mem u.text loc.text d

/-! ## What is read right -/

/-- The scheme, the host and the port of a URL are read as they are. -/
structure Url.Readable (u : Url) : Prop where
  scheme : u.scheme = https ∨ u.scheme = http
  port : ∀ p ∈ u.authority.port, digitsValue 0 p < 2 ^ 31
  host : u.target.path = [] → u.target.query = none ∨ u.authority.port.isSome

/-- Nothing of the path of the URL comes before what is put behind the first slash. -/
def Url.AtRoot (u : Url) (t : Target) : Prop :=
  if t.path = [] then u.target.path = [] ∨ u.target.path = [47] else 47 ∉ u.target.path.drop 1

/-- The references that lead from a URL to what they mean. -/
def Location.Followed (u : Url) : Location → Prop
  | absolute url => url.Readable ∧ (url.target.path = [] → url.target.query = none)
  | network _ _ _ => False
  | absPath target _ _ => u.Readable ∧ ¬schemeEnd <:+: target.text
  | relPath target _ _ _ => u.Readable ∧ ¬schemeEnd <:+: target.text ∧ u.AtRoot target

/-- The texts that a reference leads to fit into the buffers. -/
def Location.TextsFit : Location → Prop
  | absolute url => url.text.length < 2048 ∧ url.authority.host.length < 256
      ∧ (requestText url.target.path url.target.query).length < 1024
  | network authority target rooted => (network authority target rooted).text.length < 1024
  | absPath target _ _ => target.text.length < 1024
  | relPath target _ _ _ => target.text.length + 1 < 1024

/-! ## URLs taken apart -/

section Texts

variable {s g h t path : Bytes}

theorem cut_schemeEnd (hs : 58 ∉ s) : cut schemeEnd (s ++ schemeEnd ++ h) = some (s, h) := by
  rw [List.append_assoc, schemeEnd, cut_skip hs]
  simp [cut]

theorem authority_append (hg : 47 ∉ g) : authority (g ++ t) = g ++ authority t :=
  List.takeWhile_append_of_pos fun _ hb => decide_eq_true fun heq => hg (heq ▸ hb)

theorem fromSlash_append (hg : 47 ∉ g) : fromSlash (g ++ t) = fromSlash t :=
  List.dropWhile_append_of_pos fun _ hb => decide_eq_true fun heq => hg (heq ▸ hb)

theorem authority_rooted (h : t = [] ∨ t.head? = some 47) : authority t = [] ∧ fromSlash t = t := by
  cases t with
  | nil => exact ⟨rfl, rfl⟩
  | cons b t =>
      obtain rfl : b = 47 := Option.some.inj (h.resolve_left (List.cons_ne_nil b t))
      exact ⟨rfl, rfl⟩

/-- The host ends at a colon. -/
theorem hostText_colon (hslash : 47 ∉ g) (hcolon : 58 ∉ g) : hostText (g ++ 58 :: t) = g := by
  rw [hostText, authority_append hslash, List.takeWhile_append_of_pos]
  · exact List.append_nil g
  · exact fun _ hb => decide_eq_true fun heq => hcolon (heq ▸ hb)

theorem portOf_colon (hslash : 47 ∉ g) (hcolon : 58 ∉ g) :
    portOf s (g ++ 58 :: t) = Libc.atoi t := by
  have hauthority : authority (58 :: t) = 58 :: authority t := rfl
  have hdrop : (g ++ 58 :: authority t).dropWhile (· ≠ 58) = 58 :: authority t :=
    List.dropWhile_append_of_pos fun _ hb => decide_eq_true fun heq => hcolon (heq ▸ hb)
  have hfrom : fromSlash (58 :: t) = fromSlash t := rfl
  rw [portOf, authority_append hslash, hauthority, hdrop, fromSlash_append hslash, hfrom]
  exact congrArg Libc.atoi List.takeWhile_append_dropWhile

/-- Without a colon the host goes up to a slash. -/
theorem hostText_append (hslash : 47 ∉ g) (hcolon : 58 ∉ g) : hostText (g ++ t) = g ++ hostText t := by
  rw [hostText, authority_append hslash, List.takeWhile_append_of_pos]
  · rfl
  · exact fun _ hb => decide_eq_true fun heq => hcolon (heq ▸ hb)

theorem portOf_rooted (hslash : 47 ∉ g) (hcolon : 58 ∉ g) (ht : t = [] ∨ t.head? = some 47) :
    portOf s (g ++ t) = if s = https then 443 else 80 := by
  have hdrop : g.dropWhile (· ≠ 58) = [] :=
    List.dropWhile_eq_nil_iff.mpr fun _ hb => decide_eq_true fun heq => hcolon (heq ▸ hb)
  rw [portOf, authority_append hslash, (authority_rooted ht).1, List.append_nil, hdrop]

theorem portOf_bounds : -2 ^ 31 ≤ portOf s h ∧ portOf s h < 2 ^ 31 := by
  unfold portOf
  split
  · exact int32_bounds _
  · split <;> decide

theorem hostText_plain (h : Bytes) : 47 ∉ hostText h ∧ 58 ∉ hostText h := by
  constructor
  · intro hmem
    have hmem := @List.mem_takeWhile_imp _ (fun b => decide (b ≠ 47)) _ _
      ((List.takeWhile_sublist _).subset hmem)
    exact of_decide_eq_true hmem rfl
  · intro hmem
    have hmem := @List.mem_takeWhile_imp _ (fun b => decide (b ≠ 58)) _ _ hmem
    exact of_decide_eq_true hmem rfl

end Texts

/-! ## References without a scheme -/

section Relative

variable {mem : UrlBuffers} {cur loc : Bytes} {d : Destination}

/-- A `Location` with a slash before it, unless it begins with one. -/
def slashed (loc : Bytes) : Bytes := (if loc.head? = some 47 then [] else [47]) ++ loc

theorem slashed_rooted (loc : Bytes) : (slashed loc).head? = some 47 := by
  unfold slashed
  split
  · next h => exact h
  · rfl

/-- The host and the port that a URL is put together from are the ones read off it. -/
theorem rejoined (mem : UrlBuffers) {s g path : Bytes} {n : Int} (hscheme : s = https ∨ s = http)
    (hhost : g.length < 256) (hplain : 47 ∉ g ∧ 58 ∉ g) (hnul : 0 ∉ g ++ path)
    (hport : -2 ^ 31 ≤ n ∧ n < 2 ^ 31) (hrooted : path.head? = some 47) (hpath : path.length < 1024) :
    ∃ parts, (mem.split (fitted 2048 (s ++ schemeEnd ++ (g ++ 58 :: (intText n ++ path))))).Returns
      (some parts) ∧ parts.destination = ⟨s, g, n, path⟩ := by
  obtain ⟨hslash, hcolon⟩ := hplain
  have hs : s.length ≤ 5 ∧ 0 ∉ s ∧ 58 ∉ s := by
    rcases hscheme with rfl | rfl <;> decide
  have hlen := Strconv.length_intText_le hport
  have hfits : fitted 2048 (s ++ schemeEnd ++ (g ++ 58 :: (intText n ++ path)))
      = s ++ schemeEnd ++ (g ++ 58 :: (intText n ++ path)) := by
    refine List.take_of_length_le ?_
    simp only [List.length_append, List.length_cons]
    have hend : schemeEnd.length = 3 := rfl
    omega
  have hnul : 0 ∉ s ++ schemeEnd ++ (g ++ 58 :: (intText n ++ path)) := by
    have hend : 0 ∉ schemeEnd := by decide
    have hn := Strconv.not_mem_intText (b := 0) rfl (by decide) n
    simp only [List.mem_append, List.mem_cons, not_or] at hnul ⊢
    exact ⟨⟨hs.2.1, hend⟩, hnul.1, by decide, hn, hnul.2⟩
  have hcut := cut_schemeEnd (h := g ++ 58 :: (intText n ++ path)) hs.2.2
  have hhostText := hostText_colon (t := intText n ++ path) hslash hcolon
  rw [← cstr_of_noNul hnul] at hcut
  rw [hfits]
  obtain ⟨parts, hret⟩ := mem.split_returns hcut hscheme (by rwa [hhostText])
  obtain ⟨-, -, hd⟩ := mem.split_destination hcut hret
  refine ⟨parts, hret, ?_⟩
  have hatoi : Libc.atoi (intText n ++ path) = n := by
    rw [Libc.atoi_append (Libc.number_intText n), Libc.atoi_intText hport.1 hport.2]
    intro b hb
    obtain rfl : b = 47 := Option.some.inj (hb.symm.trans hrooted)
    rfl
  have hfrom : fromSlash (g ++ 58 :: (intText n ++ path)) = path := by
    rw [fromSlash_append hslash, ← List.cons_append, fromSlash_append]
    · exact (authority_rooted (Or.inr hrooted)).2
    · exact List.not_mem_cons_of_ne_of_not_mem (by decide) (Strconv.not_mem_intText rfl (by decide) n)
  have hne : path ≠ [] := by
    intro h
    rw [h] at hrooted
    cases hrooted
  rw [hd, hhostText, portOf_colon hslash hcolon, hatoi, pathOf, hfrom, if_neg hne]
  exact congrArg _ (List.take_of_length_le (Nat.le_sub_one_of_lt hpath))

/-- A `Location` without a scheme changes nothing but the path. -/
theorem redirects_relative_iff (hcut : cut schemeEnd loc = none) (hnul : 0 ∉ loc)
    (hfits : (slashed loc).length < 1024) :
    Redirects mem cur loc d
      ↔ ∃ parts, (mem.split cur).Returns (some parts)
        ∧ { parts.destination with path := slashed loc } = d := by
  have hnext : ∀ parts, (mem.split cur).Returns (some parts) →
      ∃ next parts', (redirectUrl mem cur loc).Returns (some next)
        ∧ (mem.split next).Returns (some parts')
        ∧ parts'.destination = { parts.destination with path := slashed loc } := by
    intro parts hparts
    obtain ⟨s, h, hcur⟩ := mem.exists_cut hparts
    obtain ⟨hscheme, hhost, hd⟩ := mem.split_destination hcur hparts
    have hnul : 0 ∉ hostText h ++ slashed loc := by
      have hslashed : 0 ∉ slashed loc := by
        unfold slashed
        split
        · exact hnul
        · exact List.not_mem_cons_of_ne_of_not_mem (by decide) hnul
      intro hmem
      exact (List.mem_append.mp hmem).elim (hostText_noNul (noNul_of_cut hcur)) hslashed
    obtain ⟨parts', hret, hd'⟩ := rejoined mem hscheme hhost (hostText_plain h) hnul portOf_bounds
      (slashed_rooted loc) hfits
    refine ⟨_, parts', ?_, hret, ?_⟩
    · rw [redirectUrl, hcut]
      dsimp only
      rw [hparts.bind_iff]
      have hs : cstr parts.scheme = s := congrArg Destination.scheme hd
      have hg : cstr parts.host = hostText h := congrArg Destination.host hd
      have hn : parts.port = portOf s h := congrArg Destination.port hd
      dsimp only
      rw [hs, hg, hn, slashed]
      simp only [List.append_assoc, List.cons_append]
      exact returns_pure.mpr rfl
    · rw [hd', hd]
  constructor
  · rintro ⟨next, parts', hredirect, hret, rfl⟩
    have hcur := hredirect
    rw [redirectUrl, hcut] at hcur
    dsimp only at hcur
    obtain ⟨parts, hparts, hrest⟩ := returns_bind.mp hcur
    cases parts with
    | none => cases returns_pure.mp hrest
    | some parts =>
        obtain ⟨next', parts'', hredirect', hret', hd⟩ := hnext parts hparts
        obtain rfl := Option.some.inj (hredirect.unique hredirect')
        obtain rfl := Option.some.inj (hret.unique hret')
        exact ⟨parts, hparts, hd.symm⟩
  · rintro ⟨parts, hparts, rfl⟩
    exact hnext parts hparts

/-- A `Location` with a scheme is the next URL. -/
theorem redirects_absolute_iff {s h : Bytes} (hcut : cut schemeEnd loc = some (s, h)) (hnul : 0 ∉ loc)
    (hfits : loc.length < 2048) :
    Redirects mem cur loc d
      ↔ ∃ parts, (mem.split loc).Returns (some parts) ∧ parts.destination = d := by
  have hnext : (redirectUrl mem cur loc).Returns (some loc) := by
    rw [redirectUrl, hcut]
    exact returns_pure.mpr (congrArg some (List.take_of_length_le (Nat.le_sub_one_of_lt hfits)).symm)
  constructor
  · rintro ⟨next, parts, hredirect, hret, hd⟩
    obtain rfl := Option.some.inj (hredirect.unique hnext)
    exact ⟨parts, hret, hd⟩
  · rintro ⟨parts, hret, hd⟩
    exact ⟨loc, parts, hnext, hret, hd⟩

end Relative

/-! ## The parts of a URL -/

section Parts

variable {a : Authority} {t : Target} {u : Url}

theorem Authority.not_mem_host {b : UInt8} (hb : b ∈ ([0, 35, 47, 58, 63, 64] : Bytes)) :
    b ∉ a.host := fun hmem => a.host_plain b hmem hb

theorem not_mem_port {p : Bytes} {b : UInt8} (hp : a.port = some p) (hb : isDigit b = false) :
    b ∉ p := by
  intro hmem
  rw [(a.port_digits p hp).2 b hmem] at hb
  cases hb

theorem Authority.not_mem_text {b : UInt8} (hb : b ∈ ([0, 47] : Bytes)) : b ∉ a.text := by
  have hhost : b ∉ a.host := by
    rcases List.mem_pair.mp hb with rfl | rfl
    · exact not_mem_host (by decide)
    · exact not_mem_host (by decide)
  have hcolon : b ≠ 58 ∧ isDigit b = false := by
    rcases List.mem_pair.mp hb with rfl | rfl <;> decide
  unfold text
  cases hport : a.port with
  | none => rwa [List.append_nil]
  | some p =>
      simp only [List.mem_append, List.mem_cons, not_or]
      exact ⟨hhost, hcolon.1, not_mem_port hport hcolon.2⟩

theorem Target.noNul (t : Target) : 0 ∉ t.text := by
  intro hmem
  rcases List.mem_append.mp hmem with hpath | hquery
  · exact t.path_plain 0 hpath (by decide)
  · unfold queryText at hquery
    split at hquery
    · next q hq =>
        have hq' := (List.mem_cons.mp hquery).resolve_left (by decide)
        exact t.query_plain q hq 0 hq' (by decide)
    · exact absurd hquery List.not_mem_nil

theorem Url.noNul (u : Url) : 0 ∉ u.text := by
  have hscheme : 0 ∉ u.scheme := fun hmem => u.scheme_plain 0 hmem (by decide)
  have hend : 0 ∉ schemeEnd := by decide
  simp only [text, rest, List.mem_append, not_or]
  exact ⟨⟨hscheme, hend⟩, Authority.not_mem_text (by decide), u.target.noNul⟩

theorem Url.cut_text (u : Url) : cut schemeEnd u.text = some (u.scheme, u.rest) :=
  cut_schemeEnd fun hmem => u.scheme_plain 58 hmem (by decide)

/-- Without a path and with a query, a target begins with a question mark. -/
theorem Target.text_rooted (h : t.Rooted) (hquery : t.path = [] → t.query = none) :
    t.text = [] ∨ t.text.head? = some 47 := by
  unfold text
  rcases h with hpath | hpath
  · rw [hpath, hquery hpath]
    exact Or.inl rfl
  · exact Or.inr (by rw [List.head?_append, hpath]; rfl)

theorem Target.text_head (h : t.Rooted) : ∀ b ∈ t.text.head?, isDigit b = false := by
  intro b hb
  unfold text queryText at hb
  rcases h with hpath | hpath
  · rw [hpath, List.nil_append] at hb
    split at hb
    · obtain rfl := Option.some.inj hb
      rfl
    · cases hb
  · rw [List.head?_append, hpath] at hb
    obtain rfl := Option.some.inj hb
    rfl

theorem defaultPort_known {s : Bytes} (h : s = https ∨ s = http) :
    defaultPort s = some (if s = https then 443 else 80) := by
  rcases h with rfl | rfl <;> decide

theorem lower_known {s : Bytes} (h : s = https ∨ s = http) : lower s = s := by
  rcases h with rfl | rfl <;> decide

theorem Url.readable_iff (u : Url) :
    u.Readable ↔ (u.scheme = https ∨ u.scheme = http) ∧ hostText u.rest = u.authority.host
      ∧ some (portOf u.scheme u.rest) = u.authority.portAt u.scheme := by
  have hslash : 47 ∉ u.authority.host := Authority.not_mem_host (by decide)
  have hcolon : 58 ∉ u.authority.host := Authority.not_mem_host (by decide)
  cases hport : u.authority.port with
  | some p =>
      obtain ⟨hne, hdigits⟩ := u.authority.port_digits p hport
      have hrest : u.rest = u.authority.host ++ 58 :: (p ++ u.target.text) := by
        simp only [Url.rest, Authority.text, hport, List.append_assoc, List.cons_append]
      have hatoi : Libc.atoi (p ++ u.target.text) = Libc.atoi p :=
        Libc.atoi_append (Libc.number_of_digits hne hdigits) (Target.text_head u.rooted)
      rw [hrest, hostText_colon hslash hcolon, portOf_colon hslash hcolon, hatoi, Authority.portAt,
        hport, Option.some.injEq, Libc.atoi_eq_digitsValue_iff hne hdigits]
      constructor
      · exact fun h => ⟨h.scheme, rfl, h.port p hport⟩
      · rintro ⟨hscheme, -, hlt⟩
        refine ⟨hscheme, fun q hq => ?_, fun _ => Or.inr (by rw [hport]; rfl)⟩
        obtain rfl := Option.some.inj (hport.symm.trans hq)
        exact hlt
  | none =>
      have hrest : u.rest = u.authority.host ++ u.target.text := by
        rw [Url.rest, Authority.text, hport, List.append_nil]
      rw [hrest, Authority.portAt, hport]
      by_cases hquery : u.target.path = [] → u.target.query = none
      · have hrooted := u.target.text_rooted u.rooted hquery
        rw [hostText_append hslash hcolon, portOf_rooted hslash hcolon hrooted, hostText,
          (authority_rooted hrooted).1]
        constructor
        · exact fun h => ⟨h.scheme, List.append_nil _, (defaultPort_known h.scheme).symm⟩
        · rintro ⟨hscheme, -, -⟩
          refine ⟨hscheme, fun p hp => ?_, fun hpath => Or.inl (hquery hpath)⟩
          rw [hport] at hp
          cases hp
      · push Not at hquery
        obtain ⟨hpath, hsome⟩ := hquery
        obtain ⟨q, hq⟩ := Option.ne_none_iff_exists'.mp hsome
        refine iff_of_false (fun h => ?_) (fun ⟨_, hhost, _⟩ => ?_)
        · rcases h.host hpath with hnone | hnone
          · exact hsome hnone
          · rw [hport] at hnone
            cases hnone
        · rw [hostText_append hslash hcolon, Target.text, hpath, hq] at hhost
          have hnil := List.append_right_eq_self.mp hhost
          cases hnil

theorem fromSlash_rest (u : Url) : fromSlash u.rest = fromSlash u.target.text :=
  fromSlash_append (Authority.not_mem_text (by decide))

/-- The path that is read is the one to request unless there is a query behind the host. -/
theorem Url.pathOf_rest_iff (u : Url)
    (hfits : (requestText u.target.path u.target.query).length < 1024) :
    pathOf u.rest = requestText u.target.path u.target.query
      ↔ (u.target.path = [] → u.target.query = none) := by
  rw [pathOf, fromSlash_rest]
  constructor
  · intro h hpath
    by_contra hsome
    obtain ⟨q, hq⟩ := Option.ne_none_iff_exists'.mp hsome
    -- what is behind the question mark is too short
    have hshort : (fromSlash u.target.text).length ≤ q.length := by
      rw [Target.text, hpath, hq]
      exact (List.dropWhile_suffix (l := q) _).length_le
    have hlen := congrArg List.length h
    rw [fitted, requestText, if_pos hpath, hq, queryText] at hlen
    simp only [List.length_append, List.length_cons, List.length_nil, List.length_take] at hlen
    split at hlen
    · rw [List.length_singleton] at hlen
      omega
    · omega
  · intro hquery
    have hrequest : (if fromSlash u.target.text = [] then [47] else fromSlash u.target.text)
        = requestText u.target.path u.target.query := by
      rw [(authority_rooted (Target.text_rooted u.rooted hquery)).2, requestText, Target.text]
      by_cases hpath : u.target.path = []
      · rw [hpath, hquery hpath]
        rfl
      · rw [if_neg hpath, if_neg (List.append_ne_nil_of_left_ne_nil hpath _)]
    rw [hrequest]
    exact List.take_of_length_le (Nat.le_sub_one_of_lt hfits)

end Parts

/-! ## The kinds of references -/

section Kinds

variable {mem : UrlBuffers} {u : Url} {loc path : Bytes} {query : Option Bytes} {t : Target}

/-- What is read off a URL, with another path, is what a URI of the same host means. -/
theorem read_iff (mem : UrlBuffers) (hhost : u.authority.host.length < 256) (f : Bytes → Bytes) :
    (∃ d, destinationOf ⟨u.scheme, some u.authority, path, query⟩ = some d
        ∧ ∃ parts, (mem.split u.text).Returns (some parts)
          ∧ { parts.destination with path := f parts.destination.path } = d)
      ↔ u.Readable ∧ f (pathOf u.rest) = requestText path query := by
  have hdestination : destinationOf ⟨u.scheme, some u.authority, path, query⟩
      = (u.authority.portAt u.scheme).map fun port =>
          ⟨lower u.scheme, u.authority.host, port, requestText path query⟩ := by
    rw [destinationOf]
    cases hport : u.authority.portAt u.scheme <;> simp [hport]
  have hcur : cut schemeEnd (cstr u.text) = some (u.scheme, u.rest) := by
    rw [cstr_of_noNul u.noNul, u.cut_text]
  simp only [hdestination, Option.map_eq_some_iff]
  rw [u.readable_iff]
  constructor
  · rintro ⟨d, ⟨port, hport, rfl⟩, parts, hret, hd⟩
    obtain ⟨hscheme, -, hparts⟩ := mem.split_destination hcur hret
    rw [hparts] at hd
    obtain ⟨-, hg, hn, hpath⟩ := Destination.mk.inj hd
    exact ⟨⟨hscheme, hg, hport ▸ congrArg some hn⟩, hpath⟩
  · rintro ⟨⟨hscheme, hg, hn⟩, hpath⟩
    obtain ⟨parts, hret⟩ := mem.split_returns hcur hscheme (hg ▸ hhost)
    obtain ⟨-, -, hparts⟩ := mem.split_destination hcur hret
    refine ⟨_, ⟨portOf u.scheme u.rest, hn.symm, rfl⟩, parts, hret, ?_⟩
    rw [hparts, hg, hpath, lower_known hscheme]

/-- A request at the host of a URL that is read right is for the `Location` behind a slash. -/
theorem same_host_iff (mem : UrlBuffers) (hhost : u.authority.host.length < 256)
    (hcut : cut schemeEnd loc = none) (hnul : 0 ∉ loc) (hfits : (slashed loc).length < 1024) :
    (∃ d, destinationOf ⟨u.scheme, some u.authority, path, query⟩ = some d
        ∧ Redirects mem u.text loc d)
      ↔ u.Readable ∧ slashed loc = requestText path query := by
  simp only [redirects_relative_iff hcut hnul hfits]
  exact read_iff mem hhost fun _ => slashed loc

/-- What is behind another scheme than the two is not requested. -/
theorem not_resolves_of_scheme {loc : Location} {s h : Bytes}
    (hcut : cut schemeEnd loc.text = some (s, h)) (hs : s ≠ https ∧ s ≠ http)
    (hnul : 0 ∉ loc.text) (hfits : loc.text.length < 2048) : ¬Resolves mem u loc := by
  rintro ⟨d, -, hredirects⟩
  obtain ⟨parts, hret, -⟩ := (redirects_absolute_iff hcut hnul hfits).mp hredirects
  rw [← cstr_of_noNul hnul] at hcut
  exact (mem.split_destination hcut hret).1.elim hs.1 hs.2

theorem absolute_iff (v : Url) (hfits : (Location.absolute v).TextsFit) :
    Resolves mem u (.absolute v) ↔ (Location.absolute v).Followed u := by
  obtain ⟨htext, hhost, hpath⟩ := hfits
  have hresolve : u.uri.resolve (Location.absolute v).reference = v.uri :=
    resolve_scheme v.scheme (some v.authority) v.target.dotless
  rw [Location.Followed, ← v.pathOf_rest_iff hpath]
  simp only [Resolves, hresolve, Location.text, redirects_absolute_iff v.cut_text v.noNul htext]
  exact read_iff mem hhost id

/-- What is before `://` in a text with a slash at its beginning is no scheme. -/
theorem scheme_of_rooted {s h : Bytes} (hcut : cut schemeEnd loc = some (s, h))
    (hrooted : loc.head? = some 47) : s ≠ https ∧ s ≠ http := by
  rw [cut_parts hcut] at hrooted
  constructor
  · rintro rfl
    cases hrooted
  · rintro rfl
    cases hrooted

theorem scheme_of_relative {s h : Bytes} (hcut : cut schemeEnd t.text = some (s, h))
    (hplain : 58 ∉ t.path.takeWhile (· ≠ 47)) : s ≠ https ∧ s ≠ http := by
  by_contra hnot
  have hs : 63 ∉ s ++ [58] ∧ 47 ∉ s := by
    rcases not_and_or.mp hnot with hs | hs <;> rw [not_not.mp hs] <;> decide
  have htext : t.path ++ queryText t.query = (s ++ [58]) ++ (47 :: 47 :: h) := by
    rw [← Target.text, cut_parts hcut, schemeEnd]
    simp
  have hpath : ∃ rest, t.path = (s ++ [58]) ++ rest := by
    rcases List.append_eq_append_iff.mp htext with ⟨z, hz, hquery⟩ | ⟨rest, hrest, -⟩
    · cases z with
      | nil => exact ⟨[], by rw [hz, List.append_nil, List.append_nil]⟩
      | cons b z =>
          -- the query begins with a question mark
          unfold queryText at hquery
          split at hquery
          · obtain ⟨rfl, -⟩ := List.cons.inj hquery
            exact absurd (hz ▸ List.mem_append_right _ List.mem_cons_self) hs.1
          · cases hquery
    · exact ⟨rest, hrest⟩
  obtain ⟨rest, hrest⟩ := hpath
  refine hplain ?_
  rw [hrest, List.append_assoc, List.takeWhile_append_of_pos]
  · exact List.mem_append_right _ List.mem_cons_self
  · exact fun _ hb => decide_eq_true fun heq => hs.2 (heq ▸ hb)

/-- The name of the other host is taken for a part of the path. -/
theorem not_resolves_network (a : Authority) (hrooted : t.Rooted)
    (hfits : (Location.network a t hrooted).TextsFit) : ¬Resolves mem u (.network a t hrooted) := by
  have hresolve : u.uri.resolve (Location.network a t hrooted).reference
      = ⟨u.scheme, some a, t.path, t.query⟩ := resolve_authority a t.dotless
  have hnul : 0 ∉ (Location.network a t hrooted).text := by
    simp only [Location.text, List.mem_cons, List.mem_append, not_or]
    exact ⟨by decide, by decide, Authority.not_mem_text (by decide), t.noNul⟩
  cases hcut : cut schemeEnd (Location.network a t hrooted).text with
  | some parts =>
      have hlen : (Location.network a t hrooted).text.length < 2048 := Nat.lt_trans hfits (by decide)
      exact not_resolves_of_scheme hcut (scheme_of_rooted hcut rfl) hnul hlen
  | none =>
      rintro ⟨d, hd, hredirects⟩
      obtain ⟨parts, -, rfl⟩ := (redirects_relative_iff hcut hnul hfits).mp hredirects
      rw [hresolve, destinationOf] at hd
      cases hport : a.portAt u.scheme with
      | none => simp [hport] at hd
      | some port =>
          simp only [hport, Option.bind_eq_bind, Option.bind_some, Option.pure_def,
            Option.some.injEq] at hd
          have hlen := congrArg (fun d => d.path.length) hd
          have hslashed : slashed (Location.network a t hrooted).text
            = 47 :: 47 :: (a.text ++ t.text) := rfl
          simp only [hslashed, requestText, Target.text, List.length_append, List.length_cons] at hlen
          split at hlen
          · rw [List.length_singleton] at hlen
            omega
          · omega

theorem absPath_iff (hhost : u.authority.host.length < 256) (hrooted : t.path.head? = some 47)
    (hsingle : ¬[47, 47] <+: t.path) (hfits : (Location.absPath t hrooted hsingle).TextsFit) :
    Resolves mem u (.absPath t hrooted hsingle)
      ↔ (Location.absPath t hrooted hsingle).Followed u := by
  have hne : t.path ≠ [] := by
    intro hnil
    rw [hnil] at hrooted
    cases hrooted
  have hhead : t.text.head? = some 47 := by
    rw [Target.text, List.head?_append, hrooted]
    rfl
  have hslashed : slashed t.text = t.text := by
    rw [slashed, if_pos hhead, List.nil_append]
  have hresolve : u.uri.resolve (Location.absPath t hrooted hsingle).reference
      = ⟨u.scheme, some u.authority, t.path, t.query⟩ := resolve_rooted hrooted t.dotless
  have hrequest : t.text = requestText t.path t.query := by
    rw [requestText, if_neg hne, Target.text]
  rw [Location.Followed, ← cut_eq_none_iff (by decide)]
  cases hcut : cut schemeEnd t.text with
  | some parts =>
      refine iff_of_false ?_ nofun
      have hlen : t.text.length < 2048 := Nat.lt_trans hfits (by decide)
      exact not_resolves_of_scheme hcut (scheme_of_rooted hcut hhead) t.noNul hlen
  | none =>
      rw [Resolves, hresolve, Location.text,
        same_host_iff mem hhost hcut t.noNul (by rwa [hslashed]), hslashed]
      exact and_congr_right fun _ => iff_of_true hrequest rfl

/-- The path of a URL goes up to its last slash. -/
theorem mergePath_eq (path : Bytes) (h : u.target.Rooted) :
    ∃ before, mergePath u.uri path = before ++ 47 :: path ∧ Dotless before
      ∧ (before = [] ↔ 47 ∉ u.target.path.drop 1) := by
  rcases h with hpath | hpath
  · refine ⟨[], ?_, dotless_nil, ?_⟩
    · rw [mergePath, Url.uri, hpath]
      exact if_pos ⟨rfl, rfl⟩
    · rw [hpath]
      exact iff_of_true rfl List.not_mem_nil
  · have hmem : 47 ∈ u.target.path := List.mem_of_mem_head? hpath
    obtain ⟨before, after, hcut, hparts, hafter⟩ := cutLast_of_mem hmem
    refine ⟨before, ?_, ?_, ?_⟩
    · simp only [mergePath, Url.uri, hcut]
    · have hdotless := u.target.dotless
      rw [hparts, dotless_append_iff] at hdotless
      exact hdotless.1
    · rw [hparts]
      cases before with
      | nil => exact iff_of_true rfl hafter
      | cons b before =>
          refine iff_of_false (List.cons_ne_nil b before) (not_not_intro ?_)
          exact List.mem_append_right before List.mem_cons_self

theorem relPath_iff (hhost : u.authority.host.length < 256) (hrelative : t.path.head? ≠ some 47)
    (hplain : 58 ∉ t.path.takeWhile (· ≠ 47)) (hpresent : t.path ≠ [] ∨ t.query.isSome)
    (hfits : (Location.relPath t hrelative hplain hpresent).TextsFit) :
    Resolves mem u (.relPath t hrelative hplain hpresent)
      ↔ (Location.relPath t hrelative hplain hpresent).Followed u := by
  have hhead : t.text.head? ≠ some 47 := by
    rw [Target.text, List.head?_append]
    cases hpath : t.path with
    | nil =>
        unfold queryText
        split
        · intro h
          cases h
        · intro h
          cases h
    | cons b s => rwa [hpath] at hrelative
  have hslashed : slashed t.text = 47 :: t.text := by
    rw [slashed, if_neg hhead]
    rfl
  rw [Location.Followed, ← cut_eq_none_iff (by decide)]
  cases hcut : cut schemeEnd t.text with
  | some parts =>
      refine iff_of_false ?_ nofun
      have hlen : t.text.length < 2048 := by
        have hfits : t.text.length + 1 < 1024 := hfits
        omega
      exact not_resolves_of_scheme hcut (scheme_of_relative hcut hplain) t.noNul hlen
  | none =>
      rw [Resolves, Location.text]
      have hfits : (slashed t.text).length < 1024 := by rwa [hslashed]
      by_cases hpath : t.path = []
      · obtain ⟨q, hq⟩ := Option.isSome_iff_exists.mp (hpresent.resolve_left (not_not_intro hpath))
        have hresolve : u.uri.resolve (Location.relPath t hrelative hplain hpresent).reference
            = ⟨u.scheme, some u.authority, u.target.path, some q⟩ := by
          simp only [Uri.resolve, Location.reference, hpath, if_true, hq, Option.some_or, Url.uri]
        rw [hresolve, same_host_iff mem hhost hcut t.noNul hfits, hslashed, Url.AtRoot, if_pos hpath,
          and_iff_right rfl]
        refine and_congr_right fun _ => ?_
        rw [Target.text, hpath, hq, requestText]
        split
        · next hbase => exact iff_of_true rfl (Or.inl hbase)
        · next hbase =>
            rw [or_iff_right hbase, eq_comm]
            change u.target.path ++ queryText (some q) = [47] ++ queryText (some q) ↔ _
            exact List.append_left_inj _
      · obtain ⟨before, hmerge, hdotless, hroot⟩ := mergePath_eq t.path u.rooted
        have hresolve : u.uri.resolve (Location.relPath t hrelative hplain hpresent).reference
            = ⟨u.scheme, some u.authority, before ++ 47 :: t.path, t.query⟩ := by
          have hall := dotless_append_iff.mpr ⟨hdotless, t.dotless⟩
          rw [← hmerge] at hall ⊢
          exact resolve_merge hpath hrelative hall
        rw [hresolve, same_host_iff mem hhost hcut t.noNul hfits, hslashed, Url.AtRoot, if_neg hpath,
          and_iff_right rfl, ← hroot]
        refine and_congr_right fun _ => ?_
        have hne : before ++ 47 :: t.path ≠ [] :=
          List.append_ne_nil_of_right_ne_nil _ (List.cons_ne_nil _ _)
        rw [requestText, if_neg hne, Target.text, List.append_assoc, List.cons_append, eq_comm]
        exact List.append_left_eq_self

end Kinds

/-- `http://h/a/b`. -/
def sampleUrl : Url where
  scheme := http
  authority := ⟨[104], none, by simp, nofun⟩
  target := ⟨[47, 97, 47, 98], none, by simp, nofun, by decide⟩
  scheme_plain := by simp [http]
  rooted := Or.inr rfl

/-- `c`. -/
def sampleTarget : Target := ⟨[99], none, by simp, nofun, by decide⟩

/-- From `http://h/a/b` the reference `c` is to `/a/c`, and `/c` is requested. -/
theorem relative_to_root :
    ¬Resolves staleBuffers sampleUrl (.relPath sampleTarget (by decide) (by decide) (by decide)) := by
  rw [relPath_iff (by decide) _ _ _ (by decide : sampleTarget.text.length + 1 < 1024)]
  rintro ⟨-, -, hroot⟩
  exact absurd hroot (by unfold Url.AtRoot; decide)

/-- As long as the texts fit, a redirect leads to what it means exactly for the references that are
followed. -/
theorem redirect_iff (mem : UrlBuffers) (u : Url) (loc : Location)
    (hhost : u.authority.host.length < 256) (hfits : loc.TextsFit) :
    Resolves mem u loc ↔ loc.Followed u := by
  cases loc with
  | absolute v => exact absolute_iff v hfits
  | network a t hrooted => exact iff_of_false (not_resolves_network a hrooted hfits) id
  | absPath t hrooted hsingle => exact absPath_iff hhost hrooted hsingle hfits
  | relPath t hrelative hplain hpresent => exact relPath_iff hhost hrelative hplain hpresent hfits

/-- From `http://h/a/b` the reference `/c` is followed. -/
theorem redirect_iff_sample :
    Resolves staleBuffers sampleUrl
      (.absPath ⟨[47, 99], none, by simp, nofun, by decide⟩ rfl (by decide)) := by
  refine (redirect_iff staleBuffers sampleUrl _ (by decide) ?_).mpr ⟨?_, ?_⟩
  · change _ < _
    decide
  · exact ⟨Or.inr rfl, nofun, nofun⟩
  · decide

end Tracep.Ca
