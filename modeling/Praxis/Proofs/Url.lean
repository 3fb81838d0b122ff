import Mathlib.Data.List.TakeWhile
import Praxis.Url

/-!
# The endpoint that a URL names

Of the URLs that it should take, `attach_sse_url` gets the plain ones with a name or an IPv4
address: it connects without TLS whatever the scheme says, and it cuts a bracketed address at its
first colon. Of all other strings it refuses only those without `://` and those with no number
behind the first colon of the authority (`attach_sse_url_iff`).
-/

namespace Praxis

/-- The characters of names, with the dot of names and of IPv4 addresses. -/
def nameByte (c : UInt8) : Bool :=
  isdigit c || (65 ≤ c && c ≤ 90) || (97 ≤ c && c ≤ 122) || c ∈ lit "-._~"

/-- A group of an IPv6 address. -/
def Hextet (g : Str) : Prop :=
  g ≠ [] ∧ g.length ≤ 4
    ∧ ∀ c ∈ g, isdigit c = true ∨ (65 ≤ c ∧ c ≤ 70) ∨ (97 ≤ c ∧ c ≤ 102)

/-- An IPv4 address in an IPv6 address. -/
def DottedQuad (s : Str) : Prop :=
  ∃ a b c d : ℕ, a < 256 ∧ b < 256 ∧ c < 256 ∧ d < 256
    ∧ s = (lit ".").intercalate [decimal a, decimal b, decimal c, decimal d]

/-- Groups that make so many hextets. -/
inductive Groups : ℕ → List Str → Prop
  | nil : Groups 0 []
  | quad {s : Str} (h : DottedQuad s) : Groups 2 [s]
  | cons {n : ℕ} {g : Str} {gs : List Str} (h : Hextet g) (hs : Groups n gs) :
    Groups (n + 1) (g :: gs)

/-- Eight hextets, or fewer with a double colon for the rest. -/
def Ipv6 (s : Str) : Prop :=
  (∃ gs, Groups 8 gs ∧ s = (lit ":").intercalate gs)
    ∨ ∃ before after n, (∀ g ∈ before, Hextet g) ∧ Groups n after ∧ before.length + n ≤ 7
      ∧ s = (lit ":").intercalate before ++ lit "::" ++ (lit ":").intercalate after

inductive UrlHost
  /-- A name, or an IPv4 address. -/
  | name (text : Str) (nonempty : text ≠ []) (bytes : ∀ c ∈ text, nameByte c = true)
  | ipv6 (address : Str) (grammar : Ipv6 address)

namespace UrlHost

def text : UrlHost → Str
  | name text _ _ => text
  | ipv6 address _ => lit "[" ++ address ++ lit "]"

/-- An IPv6 address is named with its brackets or without them. -/
def Names : UrlHost → Str → Prop
  | name text _ _, s => s = text
  | ipv6 address _, s => s = address ∨ s = lit "[" ++ address ++ lit "]"

def IsName : UrlHost → Prop
  | name _ _ _ => True
  | ipv6 _ _ => False

end UrlHost

structure UrlPort where
  digits : Str
  nonempty : digits ≠ []
  decimal : ∀ c ∈ digits, isdigit c = true
  pos : 1 ≤ digits_value digits
  le : digits_value digits ≤ 65535

structure UrlPath where
  text : Str
  absolute : text.head? = some 47

/-- A URL `scheme://host[:port][/path]`. -/
structure UrlParts where
  tls : Bool
  host : UrlHost
  port : Option UrlPort
  path : Option UrlPath

namespace UrlParts

variable (u : UrlParts)

def scheme : Str := if u.tls then lit "https" else lit "http"

def portText : Str := u.port.elim [] fun p => 58 :: p.digits

def pathText : Str := u.path.elim [] UrlPath.text

def text : Str := u.scheme ++ lit "://" ++ (u.host.text ++ u.portText ++ u.pathText)

def portNumber : ℤ := u.port.elim (if u.tls then 443 else 80) fun p => digits_value p.digits

def pathName : Str := u.path.elim (lit "/") UrlPath.text

end UrlParts

variable {C : Type} (L : httplib C)

/-- The transport talks to the endpoint that the URL names. -/
structure LeadsTo (t : SseEndpoint C) (u : UrlParts) : Prop where
  host : u.host.Names (L.connection t.client).host
  port : (L.connection t.client).port = u.portNumber
  tls : (L.connection t.client).tls = u.tls
  post : t.post_endpoint = u.pathName
  get : t.get_endpoint = u.pathName

/-- URLs lead where they say, and what is no URL is refused. -/
def TalksTo (url : Str) : Prop :=
  (∀ u : UrlParts, u.text = url → ∃ t, attach_sse_url L url = .ok t ∧ LeadsTo L t u)
    ∧ ((∀ u : UrlParts, u.text ≠ url) → ∃ e, parse_url url = .error e)

/-- A text that begins, after blanks and a sign, with a number that an `int` holds. -/
def BeginsWithInt (s : Str) : Prop :=
  ∃ blanks sign digits rest, s = blanks ++ (sign ++ (digits ++ rest))
    ∧ (∀ c ∈ blanks, isspace c = true) ∧ (sign = [] ∨ sign = lit "+" ∨ sign = lit "-")
    ∧ digits ≠ [] ∧ (∀ c ∈ digits, isdigit c = true) ∧ (∀ c ∈ rest.head?, isdigit c = false)
    ∧ digits_value digits < 2 ^ 31 + if sign = lit "-" then 1 else 0

/-- There is no `://`, or there is no number behind the first colon of what stands between it and
the next slash. -/
def Refused (url : Str) : Prop :=
  ¬ lit "://" <:+: url
    ∨ ∃ scheme host port path, url = scheme ++ lit "://" ++ (host ++ 58 :: port ++ path)
      ∧ ¬ lit "://" <:+: scheme ++ lit ":/" ∧ 58 ∉ host ∧ 47 ∉ host ++ 58 :: port
      ∧ (path = [] ∨ path.head? = some 47) ∧ ¬ BeginsWithInt port

section Stoi

theorem not_isspace_of_isdigit {c : UInt8} (h : isdigit c = true) : isspace c = false := by
  unfold isdigit at h
  unfold isspace
  simp only [Bool.and_eq_true, decide_eq_true_eq, UInt8.le_iff_toNat_le, UInt8.reduceToNat] at h
  simp only [Bool.or_eq_false_iff, Bool.and_eq_false_iff, beq_eq_false_iff_ne,
    decide_eq_false_iff_not, UInt8.le_iff_toNat_le, UInt8.reduceToNat, ne_eq]
  refine ⟨fun hc => ?_, .inr (by omega)⟩
  rw [hc] at h
  exact absurd h (by decide)

theorem take_sign_cons {c : UInt8} (s : Str) (hminus : c ≠ 45) (hplus : c ≠ 43) :
    take_sign (c :: s) = (false, c :: s) := by
  unfold take_sign
  split <;> simp_all

theorem take_sign_eq (s : Str) :
    ∃ sign, s = sign ++ (take_sign s).2 ∧ (sign = [] ∨ sign = lit "+" ∨ sign = lit "-")
      ∧ ((take_sign s).1 = true ↔ sign = lit "-") := by
  unfold take_sign
  split
  · exact ⟨lit "-", rfl, .inr (.inr rfl), iff_of_true rfl rfl⟩
  · exact ⟨lit "+", rfl, .inr (.inl rfl), iff_of_false nofun (by decide)⟩
  · exact ⟨[], rfl, .inl rfl, iff_of_false nofun (by decide)⟩

theorem stoi_parts {blanks sign digits rest : Str} (hblanks : ∀ c ∈ blanks, isspace c = true)
    (hsign : sign = [] ∨ sign = lit "+" ∨ sign = lit "-") (hne : digits ≠ [])
    (hdigits : ∀ c ∈ digits, isdigit c = true) (hrest : ∀ c ∈ rest.head?, isdigit c = false) :
    take_sign ((blanks ++ (sign ++ (digits ++ rest))).dropWhile isspace)
        = (decide (sign = lit "-"), digits ++ rest)
      ∧ (digits ++ rest).takeWhile isdigit = digits := by
  obtain ⟨d, digits', rfl⟩ := List.exists_cons_of_ne_nil hne
  have hd := hdigits d List.mem_cons_self
  have hspace := not_isspace_of_isdigit hd
  have hminus : d ≠ 45 := fun h => by rw [h] at hd; exact absurd hd (by decide)
  have hplus : d ≠ 43 := fun h => by rw [h] at hd; exact absurd hd (by decide)
  refine ⟨?_, ?_⟩
  · rw [List.dropWhile_append_of_pos hblanks]
    rcases hsign with rfl | rfl | rfl
    · rw [List.nil_append, List.cons_append, List.dropWhile_cons_of_neg (by simp [hspace]),
        take_sign_cons _ hminus hplus]
      rfl
    · rfl
    · rfl
  · rw [List.takeWhile_append_of_pos hdigits]
    rcases rest with _ | ⟨c, rest⟩
    · simp
    · rw [List.takeWhile_cons_of_neg (by simp [hrest c rfl]), List.append_nil]

theorem stoi_of_parts {blanks sign digits rest : Str} (hblanks : ∀ c ∈ blanks, isspace c = true)
    (hsign : sign = [] ∨ sign = lit "+" ∨ sign = lit "-") (hne : digits ≠ [])
    (hdigits : ∀ c ∈ digits, isdigit c = true) (hrest : ∀ c ∈ rest.head?, isdigit c = false)
    (hrange : digits_value digits < 2 ^ 31 + if sign = lit "-" then 1 else 0) :
    stoi (blanks ++ (sign ++ (digits ++ rest)))
      = .ok (if sign = lit "-" then -(digits_value digits : ℤ) else digits_value digits) := by
  obtain ⟨h1, h2⟩ := stoi_parts hblanks hsign hne hdigits hrest
  unfold stoi
  simp only [h1, h2, List.isEmpty_eq_false_iff.2 hne, Bool.false_eq_true, if_false,
    decide_eq_true_eq]
  rw [if_neg]
  split_ifs at hrange ⊢ <;> omega

theorem beginsWithInt_of_stoi {s : Str} {n : ℤ} (h : stoi s = .ok n) : BeginsWithInt s := by
  obtain ⟨sign, hsplit, hsign, hminus⟩ := take_sign_eq (s.dropWhile isspace)
  unfold stoi at h
  dsimp only at h
  generalize take_sign (s.dropWhile isspace) = signed at h hsplit hminus
  generalize hm : (if signed.1 = true then -(digits_value (signed.2.takeWhile isdigit) : ℤ)
    else digits_value (signed.2.takeWhile isdigit)) = m at h
  split_ifs at h with hempty hrange
  refine ⟨s.takeWhile isspace, sign, signed.2.takeWhile isdigit, signed.2.dropWhile isdigit, ?_,
    fun c hc => List.mem_takeWhile_imp hc, hsign, by simpa using hempty,
    fun c hc => List.mem_takeWhile_imp hc, fun c hc => ?_, ?_⟩
  · rw [List.takeWhile_append_dropWhile, ← hsplit, List.takeWhile_append_dropWhile]
  · have hnot := List.head?_dropWhile_not isdigit signed.2
    rw [Option.mem_def.1 hc] at hnot
    exact hnot
  · simp only [hminus] at hm
    split_ifs at hm ⊢ <;> omega

theorem stoi_error_iff {s : Str} : (∃ e, stoi s = .error e) ↔ ¬ BeginsWithInt s := by
  constructor
  · rintro ⟨e, he⟩ ⟨blanks, sign, digits, rest, rfl, h1, h2, h3, h4, h5, h6⟩
    rw [stoi_of_parts h1 h2 h3 h4 h5 h6] at he
    cases he
  · intro h
    rcases hs : stoi s with e | n
    · exact ⟨e, rfl⟩
    · exact absurd (beginsWithInt_of_stoi hs) h

end Stoi

section Pieces

variable {scheme authority path host port rest : Str}

theorem find_single_none {c : UInt8} {s : Str} (h : c ∉ s) : Framing.find [c] s = none :=
  Framing.find_eq_none_iff.2 (by rwa [List.singleton_infix_iff])

theorem split_path_append (hslash : 47 ∉ authority) (hpath : path = [] ∨ path.head? = some 47) :
    split_path (authority ++ path) = (authority, if path = [] then lit "/" else path) := by
  unfold split_path
  rcases path with _ | ⟨c, path⟩
  · rw [List.append_nil, show lit "/" = [47] from rfl, find_single_none hslash]
    rfl
  · obtain rfl : c = 47 := by simpa using hpath
    rw [show lit "/" = [47] from rfl, Framing.find_singleton path hslash]
    dsimp only
    rw [List.take_left' rfl, List.drop_left' rfl]
    rfl

theorem split_port_none (tls : Bool) (h : 58 ∉ authority) :
    split_port tls authority = .ok (authority, if tls then 443 else 80) := by
  unfold split_port
  rw [show lit ":" = [58] from rfl, find_single_none h]

theorem split_port_some (tls : Bool) (h : 58 ∉ host) :
    split_port tls (host ++ 58 :: port) = (stoi port).map fun n => (host, n) := by
  unfold split_port
  rw [show lit ":" = [58] from rfl, Framing.find_singleton port h]
  dsimp only
  rw [List.take_left' rfl, show host ++ 58 :: port = (host ++ [58]) ++ port by simp,
    List.drop_left' (by simp)]

theorem parse_url_none {url : Str} (h : ¬ lit "://" <:+: url) :
    parse_url url = .error (.runtime_error (lit "invalid url (no scheme): " ++ url)) := by
  unfold parse_url
  rw [Framing.find_eq_none_iff.2 h]

theorem find_scheme (h : ¬ lit "://" <:+: scheme ++ lit ":/") (rest : Str) :
    Framing.find (lit "://") (scheme ++ lit "://" ++ rest) = some scheme.length :=
  Framing.find_of_not_infix (show ¬ lit "://" <:+: scheme ++ (lit "://").dropLast from h) rest

theorem parse_url_append (h : ¬ lit "://" <:+: scheme ++ lit ":/") (hslash : 47 ∉ authority)
    (hpath : path = [] ∨ path.head? = some 47) :
    parse_url (scheme ++ lit "://" ++ (authority ++ path))
      = (split_port (scheme == lit "https") authority).map fun named =>
        { base := scheme ++ lit "://" ++ authority
          host := named.1
          port := named.2
          tls := scheme == lit "https"
          path := if path = [] then lit "/" else path } := by
  have htake : (scheme ++ lit "://" ++ (authority ++ path)).take scheme.length = scheme := by
    rw [List.append_assoc, List.take_left' rfl]
  have hlength : (scheme ++ lit "://").length = scheme.length + 3 := by simp [lit]
  unfold parse_url
  rw [find_scheme h]
  dsimp only
  rw [htake, List.take_left' hlength, List.drop_left' hlength, split_path_append hslash hpath]

/-- Every string is without `://` or has a scheme, an authority and a path. -/
theorem url_cases (url : Str) :
    ¬ lit "://" <:+: url
      ∨ ∃ scheme authority path, url = scheme ++ lit "://" ++ (authority ++ path)
        ∧ ¬ lit "://" <:+: scheme ++ lit ":/" ∧ 47 ∉ authority
        ∧ (path = [] ∨ path.head? = some 47) := by
  rcases hfind : Framing.find (lit "://") url with _ | n
  · exact .inl (Framing.find_eq_none_iff.1 hfind)
  · refine .inr ⟨url.take n, (url.drop (n + 3)).takeWhile (· != 47),
      (url.drop (n + 3)).dropWhile (· != 47), ?_, ?_, fun h => ?_, ?_⟩
    · rw [List.takeWhile_append_dropWhile]
      exact (Framing.take_append_drop_of_find hfind).symm
    · exact Framing.not_infix_of_find (by decide) hfind
    · simpa using List.mem_takeWhile_imp h
    · have hnot := List.head?_dropWhile_not (· != 47) (url.drop (n + 3))
      rcases hpath : (url.drop (n + 3)).dropWhile (· != 47) with _ | ⟨c, path⟩
      · exact .inl rfl
      · rw [hpath] at hnot
        exact .inr (by simpa using hnot)

/-- With a colon in the authority, what follows the first one is the port. -/
theorem parse_url_port (h : ¬ lit "://" <:+: scheme ++ lit ":/") (hhost : 58 ∉ host)
    (hslash : 47 ∉ host ++ 58 :: port) (hpath : path = [] ∨ path.head? = some 47) :
    parse_url (scheme ++ lit "://" ++ (host ++ 58 :: port ++ path))
      = (stoi port).map fun n =>
        { base := scheme ++ lit "://" ++ (host ++ 58 :: port)
          host := host
          port := n
          tls := scheme == lit "https"
          path := if path = [] then lit "/" else path } := by
  rw [parse_url_append h hslash hpath, split_port_some _ hhost]
  cases stoi port <;> rfl

/-- What becomes of a string: there is no `://`, or no port is named, or there is text for one. -/
theorem parse_url_cases (url : Str) :
    ¬ lit "://" <:+: url
      ∨ (∃ parsed, parse_url url = .ok parsed ∧ 58 ∉ parsed.host)
      ∨ ∃ scheme host port path, url = scheme ++ lit "://" ++ (host ++ 58 :: port ++ path)
        ∧ ¬ lit "://" <:+: scheme ++ lit ":/" ∧ 58 ∉ host ∧ 47 ∉ host ++ 58 :: port
        ∧ (path = [] ∨ path.head? = some 47) := by
  rcases url_cases url with hnone | ⟨scheme, authority, path, rfl, hfirst, hslash, hpath⟩
  · exact .inl hnone
  · by_cases hcolon : 58 ∈ authority
    · obtain ⟨host, port, rfl, hhost⟩ := List.eq_append_cons_of_mem hcolon
      exact .inr (.inr ⟨scheme, host, port, path, rfl, hfirst, hhost, hslash, hpath⟩)
    · rw [parse_url_append hfirst hslash hpath, split_port_none _ hcolon]
      exact .inr (.inl ⟨_, rfl, hcolon⟩)

theorem parse_url_error_iff (url : Str) : (∃ e, parse_url url = .error e) ↔ Refused url := by
  constructor
  · rintro ⟨e, he⟩
    rcases parse_url_cases url with hnone | ⟨parsed, hok, -⟩
      | ⟨scheme, host, port, path, rfl, hfirst, hhost, hslash, hpath⟩
    · exact .inl hnone
    · rw [hok] at he
      cases he
    · refine .inr ⟨scheme, host, port, path, rfl, hfirst, hhost, hslash, hpath,
        stoi_error_iff.1 ?_⟩
      rw [parse_url_port hfirst hhost hslash hpath] at he
      rcases hport : stoi port with e | n
      · exact ⟨e, rfl⟩
      · rw [hport] at he
        cases he
  · rintro (hnone | ⟨scheme, host, port, path, rfl, hfirst, hhost, hslash, hpath, hport⟩)
    · exact ⟨_, parse_url_none hnone⟩
    · obtain ⟨e, he⟩ := stoi_error_iff.2 hport
      rw [parse_url_port hfirst hhost hslash hpath, he]
      exact ⟨e, rfl⟩

theorem parse_url_host {url : Str} {parsed : ParsedUrl} (h : parse_url url = .ok parsed) :
    58 ∉ parsed.host := by
  rcases parse_url_cases url with hnone | ⟨parsed', hok, hhost⟩
    | ⟨scheme, host, port, path, rfl, hfirst, hhost, hslash, hpath⟩
  · rw [parse_url_none hnone] at h
    cases h
  · rw [hok] at h
    cases h
    exact hhost
  · rw [parse_url_port hfirst hhost hslash hpath] at h
    rcases hport : stoi port with e | n <;> rw [hport] at h
    · cases h
    · cases h
      exact hhost

end Pieces

section Grammar

theorem Groups.length_le {n : ℕ} {gs : List Str} (h : Groups n gs) : n ≤ gs.length + 1 := by
  induction h with
  | nil => exact Nat.zero_le _
  | quad => exact le_rfl
  | cons _ _ ih => exact Nat.succ_le_succ ih

theorem Ipv6.mem {s : Str} (h : Ipv6 s) : 58 ∈ s := by
  rcases h with ⟨gs, hgs, rfl⟩ | ⟨before, after, n, -, -, -, rfl⟩
  · have hlength := hgs.length_le
    rcases gs with _ | ⟨g, _ | ⟨g', gs⟩⟩
    · simp at hlength
    · simp at hlength
    · rw [List.intercalate_cons_cons]
      simp [lit]
  · simp [lit]

theorem nameByte_ne {c : UInt8} (h : nameByte c = true) : c ≠ 47 ∧ c ≠ 58 ∧ c ≠ 91 := by
  refine ⟨?_, ?_, ?_⟩ <;> rintro rfl <;> exact absurd h (by decide)

theorem isdigit_ne {c : UInt8} (h : isdigit c = true) : c ≠ 47 := by
  rintro rfl
  exact absurd h (by decide)

theorem stoi_digits (p : UrlPort) : stoi p.digits = .ok (digits_value p.digits : ℤ) := by
  have hle := p.le
  have h := @stoi_of_parts [] [] p.digits [] nofun (.inl rfl) p.nonempty p.decimal nofun
    (by rw [if_neg (by decide)]; omega)
  rwa [List.nil_append, List.nil_append, List.append_nil, if_neg (by decide)] at h

variable {u : UrlParts}

theorem pathText_head (u : UrlParts) : u.pathText = [] ∨ u.pathText.head? = some 47 := by
  unfold UrlParts.pathText
  rcases u.path with _ | p
  · exact .inl rfl
  · exact .inr p.absolute

theorem pathName_eq (u : UrlParts) :
    (if u.pathText = [] then lit "/" else u.pathText) = u.pathName := by
  unfold UrlParts.pathText UrlParts.pathName
  rcases u.path with _ | p
  · rfl
  · refine if_neg fun h => ?_
    have habs := p.absolute
    rw [show p.text = [] from h] at habs
    cases habs

theorem not_infix_scheme (u : UrlParts) : ¬ lit "://" <:+: u.scheme ++ lit ":/" := by
  unfold UrlParts.scheme
  cases u.tls <;> decide

variable {L} (hL : L.PlainHttp)
include hL

/-- A plain URL with a name leads where it says. -/
theorem attach_sse_url_name (htls : u.tls = false) (hname : u.host.IsName) :
    ∃ t, attach_sse_url L u.text = .ok t ∧ LeadsTo L t u := by
  obtain ⟨tls, host, port, path⟩ := u
  obtain rfl : tls = false := htls
  rcases host with ⟨name, hne, hbytes⟩ | _
  swap
  · exact absurd hname id
  have hname58 : 58 ∉ name := fun h => (nameByte_ne (hbytes 58 h)).2.1 rfl
  have hname47 : 47 ∉ name := fun h => (nameByte_ne (hbytes 47 h)).1 rfl
  generalize hu : UrlParts.mk false (.name name hne hbytes) port path = u
  have hslash : 47 ∉ name ++ u.portText := by
    rw [← hu]
    rcases port with _ | p
    · simpa [UrlParts.portText] using hname47
    · intro h
      rcases List.mem_append.1 h with h | h
      · exact hname47 h
      · rcases List.mem_cons.1 h with h | h
        · cases h
        · exact isdigit_ne (p.decimal 47 h) rfl
  have hport : split_port false (name ++ u.portText) = .ok (name, u.portNumber) := by
    rw [← hu]
    rcases port with _ | p
    · simp only [UrlParts.portText, UrlParts.portNumber, Option.elim_none, List.append_nil]
      exact split_port_none false hname58
    · simp only [UrlParts.portText, UrlParts.portNumber, Option.elim_some]
      rw [split_port_some false hname58, stoi_digits]
      rfl
  have htext : u.text = u.scheme ++ lit "://" ++ (name ++ u.portText ++ u.pathText) := by
    rw [← hu]
    rfl
  have hscheme : (u.scheme == lit "https") = false := by
    rw [← hu]
    exact show (lit "http" == lit "https") = false by decide
  rw [attach_sse_url, htext, parse_url_append (not_infix_scheme u) hslash (pathText_head u),
    hscheme, hport]
  have hconnects := hL name u.portNumber
  refine ⟨_, rfl, ?_, ?_, ?_, pathName_eq u, pathName_eq u⟩
  · rw [show (L.connection (L.Client name u.portNumber)).host = name by rw [hconnects], ← hu]
    rfl
  · exact congrArg Connection.port hconnects
  · rw [show (L.connection (L.Client name u.portNumber)).tls = false by rw [hconnects], ← hu]

/-- An endpoint that a URL leads to is plain and has a name for its host. -/
theorem LeadsTo.plain {url : Str} {t : SseEndpoint C} (ht : attach_sse_url L url = .ok t)
    (h : LeadsTo L t u) : u.tls = false ∧ u.host.IsName := by
  unfold attach_sse_url at ht
  rcases hparse : parse_url url with e | parsed <;> rw [hparse] at ht
  · cases ht
  · cases ht
    have hconnects := hL parsed.host parsed.port
    refine ⟨h.tls.symm.trans (congrArg Connection.tls hconnects), ?_⟩
    have hhost : u.host.Names (L.connection (L.Client parsed.host parsed.port)).host := h.host
    rw [hconnects] at hhost
    have hcolon := parse_url_host hparse
    rcases hu : u.host with _ | ⟨address, hgrammar⟩
    · trivial
    · rw [hu] at hhost
      rcases hhost with hhost | hhost
      · exact hcolon (by
          rw [show parsed.host = address from hhost]
          exact hgrammar.mem)
      · refine hcolon ?_
        rw [show parsed.host = lit "[" ++ address ++ lit "]" from hhost]
        exact List.mem_append_left _ (List.mem_append_right _ hgrammar.mem)

omit hL in
/-- Whether a URL is plain and has a name can be read off its text. -/
theorem plain_of_text_eq {u v : UrlParts} (h : u.text = v.text) (htls : u.tls = false)
    (hname : u.host.IsName) : v.tls = false ∧ v.host.IsName := by
  have hfind := congrArg (Framing.find (lit "://")) h
  rw [UrlParts.text, UrlParts.text, find_scheme (not_infix_scheme u),
    find_scheme (not_infix_scheme v), Option.some.injEq] at hfind
  have htls' : v.tls = false := by
    unfold UrlParts.scheme at hfind
    rw [htls] at hfind
    rcases hv : v.tls with _ | _
    · rfl
    · rw [hv] at hfind
      exact absurd hfind (by decide)
  have hscheme : u.scheme = v.scheme := by rw [UrlParts.scheme, UrlParts.scheme, htls, htls']
  refine ⟨htls', ?_⟩
  rw [UrlParts.text, UrlParts.text, hscheme] at h
  have hrest := List.append_cancel_left h
  rcases hv : v.host with _ | ⟨address, hgrammar⟩
  · trivial
  · rcases hu : u.host with ⟨name, hne, hbytes⟩ | _
    · rw [hu, hv] at hrest
      obtain ⟨c, name, rfl⟩ := List.exists_cons_of_ne_nil hne
      obtain rfl : c = 91 := (List.cons.inj hrest).1
      exact absurd (hbytes 91 List.mem_cons_self) (by decide)
    · rw [hu] at hname
      exact hname

end Grammar

/-- URLs lead where they say exactly if they are plain with a name for the host, and what is no URL
is refused exactly if there is no `://` or no number where the port should be. -/
theorem attach_sse_url_iff (hL : L.PlainHttp) (url : Str) :
    TalksTo L url ↔ (∃ u : UrlParts, u.text = url ∧ u.tls = false ∧ u.host.IsName)
      ∨ ((∀ u : UrlParts, u.text ≠ url) ∧ Refused url) := by
  unfold TalksTo
  rw [parse_url_error_iff]
  constructor
  · rintro ⟨hurl, hother⟩
    by_cases hu : ∃ u : UrlParts, u.text = url
    · obtain ⟨u, rfl⟩ := hu
      obtain ⟨t, ht, hreach⟩ := hurl u rfl
      exact .inl ⟨u, rfl, hreach.plain hL ht⟩
    · have hnone : ∀ u : UrlParts, u.text ≠ url := fun u h => hu ⟨u, h⟩
      exact .inr ⟨hnone, hother hnone⟩
  · rintro (⟨u, rfl, htls, hname⟩ | ⟨hnone, hrefused⟩)
    · refine ⟨fun v hv => ?_, fun h => absurd rfl (h u)⟩
      obtain ⟨htls', hname'⟩ := plain_of_text_eq hv.symm htls hname
      rw [← hv]
      exact attach_sse_url_name hL htls' hname'
    · exact ⟨fun u hu => absurd hu (hnone u), fun _ => hrefused⟩

/-- Clients that are no more than where they connect. -/
def plainClients : httplib Connection where
  Client := fun host port => { host := host, port := port, tls := false }
  connection := id

theorem attach_sse_url_iff_plain : TalksTo plainClients (lit "http://h:8080/mcp") := by
  let u : UrlParts :=
    { tls := false
      host := .name (lit "h") (by decide) (List.all_eq_true.1 (by decide))
      port := some ⟨lit "8080", by decide, List.all_eq_true.1 (by decide), by decide, by decide⟩
      path := some ⟨lit "/mcp", by decide⟩ }
  exact (attach_sse_url_iff plainClients (fun _ _ => rfl) _).2 (.inl ⟨u, rfl, rfl, trivial⟩)

/-- `https://example.com/mcp`. -/
def secureUrl : UrlParts where
  tls := true
  host := .name (lit "example.com") (by decide) (List.all_eq_true.1 (by decide))
  port := none
  path := some ⟨lit "/mcp", by decide⟩

/-- The client for it does not use TLS. -/
theorem attach_sse_url_insecure :
    plainClients.PlainHttp ∧ secureUrl.text = lit "https://example.com/mcp"
      ∧ ¬ TalksTo plainClients (lit "https://example.com/mcp") := by
  have hplain : plainClients.PlainHttp := fun _ _ => rfl
  have htext : secureUrl.text = lit "https://example.com/mcp" := rfl
  refine ⟨hplain, htext, fun h => ?_⟩
  obtain ⟨t, ht, hreach⟩ := h.1 secureUrl htext
  exact absurd (hreach.plain hplain ht).1 (by decide)

end Praxis
