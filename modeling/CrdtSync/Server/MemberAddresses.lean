import Mathlib
import CrdtSync.Core.JsonText
import CrdtSync.Server.Dial

/-!
# One endpoint, one member

The canonical spelling of an advertise address names the endpoint the address names, is
its own canonical spelling, and is shared by exactly the addresses of that endpoint. The
trust unit of an address is its host as the certificate binding reads it.
-/

namespace CrdtSync

namespace Server

open Lib.Text Lib.Ip

/-! ### What an endpoint names -/

namespace PeerEndpoint

/-- What stands between the scheme and the root path. -/
def authority (e : PeerEndpoint) : Text :=
  trimEndMatches '/' (((splitOnce SCHEME_END e.url).map Prod.snd).getD [])

def host (e : PeerEndpoint) : Option Text := hostOf e.authority

def port (e : PeerEndpoint) : Option Nat :=
  ((afterHost e.authority).bind portAfter).map fun port => port.getD e.transport.defaultPort

end PeerEndpoint

/-- A host in lower case, without its trailing root dots. -/
def plainHost (host : Text) : Text := toAsciiLowercase (trimEndMatches '.' host)

/-- Hosts that differ in case, root dots or the spelling of an IP literal only. -/
def SameHost (host host' : Text) : Prop :=
  plainHost host = plainHost host' ∨
    ∃ addr, parseIpAddr (plainHost host) = some addr ∧ parseIpAddr (plainHost host') = some addr

structure SameEndpoint (e e' : PeerEndpoint) : Prop where
  transport : e.transport = e'.transport
  host : ∃ h h', e.host = some h ∧ e'.host = some h' ∧ SameHost h h'
  port : ∃ p, e.port = some p ∧ e'.port = some p

/-- A host as an address or, where it is none, as a name. -/
inductive HostKey
  | ip (addr : IpAddr)
  | name (text : Text)

def nameKey (name : Text) : HostKey := ((parseIpAddr name).map HostKey.ip).getD (.name name)

def hostKey (host : Text) : HostKey := nameKey (plainHost host)

namespace HostKey

def text : HostKey → Text
  | ip addr => printIpAddr addr
  | name text => text

def written : HostKey → Text
  | ip addr => bracketed addr
  | name text => text

end HostKey

theorem nameKey_eq_iff {name name' : Text} : nameKey name = nameKey name' ↔
    name = name' ∨ ∃ addr, parseIpAddr name = some addr ∧ parseIpAddr name' = some addr := by
  unfold nameKey
  constructor
  · intro hKey
    cases hAddr : parseIpAddr name with
    | none =>
      cases hAddr' : parseIpAddr name' with
      | none =>
        rw [hAddr, hAddr'] at hKey
        exact .inl (HostKey.name.inj hKey)
      | some addr' =>
        rw [hAddr, hAddr'] at hKey
        cases hKey
    | some addr =>
      cases hAddr' : parseIpAddr name' with
      | none =>
        rw [hAddr, hAddr'] at hKey
        cases hKey
      | some addr' =>
        rw [hAddr, hAddr'] at hKey
        exact .inr ⟨addr, rfl, congrArg some (HostKey.ip.inj hKey).symm⟩
  · rintro (hName | ⟨addr, hAddr, hAddr'⟩)
    · rw [hName]
    · rw [hAddr, hAddr']
      rfl

theorem sameHost_iff {host host' : Text} : SameHost host host' ↔ hostKey host = hostKey host' :=
  nameKey_eq_iff.symm

theorem sameName_iff {host name : Text} : sameName host name = true ↔ nameKey host = nameKey name := by
  rw [nameKey_eq_iff, sameName]
  cases hHost : parseIpAddr host with
  | none =>
    cases parseIpAddr name <;> simp
  | some addr =>
    cases hName : parseIpAddr name with
    | none =>
      simp
    | some addr' =>
      simp only [decide_eq_true_eq, Option.some.injEq, exists_eq_left']
      refine ⟨fun hSame => .inr hSame.symm, ?_⟩
      rintro (rfl | hSame)
      · rw [hHost] at hName
        exact Option.some.inj hName
      · exact hSame.symm

/-! ### Characters -/

theorem isWhitespace_of_isAuthorityChar {c : Char} (h : isAuthorityChar c = true) :
    isWhitespace c = false := by
  have hNat : 45 ≤ c.toNat ∧ c.toNat ≤ 122 := by
    simp only [isAuthorityChar, Char.isAlphanum, Char.isAlpha, Char.isUpper, Char.isLower,
      Char.isDigit, Bool.or_eq_true, Bool.and_eq_true, decide_eq_true_eq,
      UInt32.le_iff_toNat_le] at h
    obtain (((((((⟨hLow, hHigh⟩ | ⟨hLow, hHigh⟩) | ⟨hLow, hHigh⟩) | rfl) | rfl) | rfl) | rfl) | rfl) |
      rfl := h
    · exact ⟨le_trans (by decide) hLow, le_trans hHigh (by decide)⟩
    · exact ⟨le_trans (by decide) hLow, le_trans hHigh (by decide)⟩
    · exact ⟨le_trans (by decide) hLow, le_trans hHigh (by decide)⟩
    all_goals decide
  simp only [isWhitespace, Bool.or_eq_false_iff, Bool.and_eq_false_iff, decide_eq_false_iff_not]
  omega

theorem ne_slash_of_isAuthorityChar {c : Char} (h : isAuthorityChar c = true) : c ≠ '/' := by
  rintro rfl
  cases h

theorem isAuthorityChar_toLower {c : Char} (h : isAuthorityChar c = true) :
    isAuthorityChar c.toLower = true := by
  by_cases hUpper : 'A' ≤ c ∧ c ≤ 'Z'
  · obtain ⟨n, hn, rfl⟩ := toLower_of_upper hUpper
    have hAll : ∀ n < 26, isAuthorityChar (Char.ofNat (65 + n)).toLower = true := by decide
    exact hAll n hn
  · rwa [toLower_of_notUpper hUpper]

theorem isAuthorityChar_of_isPrinted {c : Char} (h : IsPrinted c) : isAuthorityChar c = true := by
  obtain ⟨d, hd, rfl⟩ := h
  have hAll : ∀ d < 16, isAuthorityChar (Nat.digitChar d) = true := by decide
  exact hAll d hd

theorem toLower_idem (c : Char) : c.toLower.toLower = c.toLower := by
  by_cases hUpper : 'A' ≤ c ∧ c ≤ 'Z'
  · obtain ⟨n, hn, rfl⟩ := toLower_of_upper hUpper
    have hAll : ∀ n < 26, (Char.ofNat (65 + n)).toLower.toLower = (Char.ofNat (65 + n)).toLower := by
      decide
    exact hAll n hn
  · rw [toLower_of_notUpper hUpper, toLower_of_notUpper hUpper]

theorem toLower_eq_dot {c : Char} : c.toLower = '.' ↔ c = '.' := toLower_eq_iff (by decide)

theorem toAsciiLowercase_idem (s : Text) :
    toAsciiLowercase (toAsciiLowercase s) = toAsciiLowercase s := by
  rw [toAsciiLowercase, toAsciiLowercase, List.map_map]
  exact List.map_congr_left fun c _ => toLower_idem c

theorem trimEndMatches_lower (host : Text) :
    trimEndMatches '.' (toAsciiLowercase host) = toAsciiLowercase (trimEndMatches '.' host) :=
  trimEndMatches_map (fun _ => toLower_eq_dot) host

theorem plainHost_lower (host : Text) : plainHost (toAsciiLowercase host) = plainHost host := by
  rw [plainHost, trimEndMatches_lower, toAsciiLowercase_idem, plainHost]

theorem mem_plainHost {host : Text} (hChars : ∀ c ∈ host, isAuthorityChar c = true) :
    ∀ c ∈ plainHost host, isAuthorityChar c = true := by
  intro c hc
  obtain ⟨d, hd, rfl⟩ := List.mem_map.mp hc
  exact isAuthorityChar_toLower (hChars d (mem_of_mem_trimEndMatches hd))

theorem normalized_eq {host : Text} (hChars : ∀ c ∈ host, isAuthorityChar c = true) :
    normalized host = plainHost host := by
  rw [normalized, trim_eq_self fun c hc => isWhitespace_of_isAuthorityChar (hChars c hc)]
  rfl

/-! ### What the parse accepts -/

/-- An authority the parse accepts. -/
structure AcceptedAuthority (authority : Text) : Prop where
  nonempty : authority ≠ []
  chars : ∀ c ∈ authority, isAuthorityChar c = true
  brackets : bracketsFit authority = true
  labels : (hostOf authority).any hasEmptyLabel = false
  host : (hostOf authority).isSome = true

def endpointOf (transport : PeerTransport) (authority : Text) : PeerEndpoint :=
  ⟨transport.scheme ++ (SCHEME_END ++ (authority ++ ['/'])), transport⟩

theorem parse_eq_ok_iff {addr : Text} {e : PeerEndpoint} :
    PeerEndpoint.parse addr = .ok e ↔ ∃ transport authority,
      declared (trim addr) = .ok (transport, authority) ∧ AcceptedAuthority authority ∧
        e = endpointOf transport authority := by
  unfold PeerEndpoint.parse
  cases hDeclared : declared (trim addr) with
  | error fault =>
    constructor
    · intro hParse
      cases hParse
    · rintro ⟨transport, authority, hOk, -⟩
      cases hOk
  | ok parts =>
    obtain ⟨transport, authority⟩ := parts
    dsimp only
    constructor
    · intro hParse
      split at hParse
      · cases hParse
      · next hNonempty =>
        split at hParse
        · cases hParse
        · next hChars =>
          split at hParse
          · cases hParse
          · next hBrackets =>
            split at hParse
            · cases hParse
            · next hLabels =>
              split at hParse
              · cases hParse
              · next hHost =>
                cases hParse
                exact ⟨transport, authority, rfl, ⟨by simpa using hNonempty, by simpa using hChars,
                  by simpa using hBrackets, by simpa using hLabels,
                  by simpa [Option.isSome_iff_ne_none] using hHost⟩, rfl⟩
    · rintro ⟨transport', authority', hOk, hAccepted, rfl⟩
      obtain ⟨rfl, rfl⟩ := Prod.mk.inj (Except.ok.inj hOk)
      have hChars : authority.all isAuthorityChar = true := List.all_eq_true.mpr hAccepted.chars
      rw [if_neg (by simpa using hAccepted.nonempty), if_neg (by simp [hChars]),
        if_neg (by simp [hAccepted.brackets]), if_neg (by simp [hAccepted.labels]),
        if_neg (by simpa [Option.isSome_iff_ne_none] using hAccepted.host)]
      rfl

section Authority

variable {authority : Text}

theorem AcceptedAuthority.slash (h : AcceptedAuthority authority) : '/' ∉ authority := fun hIn =>
  ne_slash_of_isAuthorityChar (h.chars '/' hIn) rfl

theorem splitOnce_url (transport : PeerTransport) (authority : Text) :
    splitOnce SCHEME_END (endpointOf transport authority).url =
      some (transport.scheme, authority ++ ['/']) := by
  refine splitOnce_append ?_ (authority ++ ['/'])
  cases transport <;> decide

theorem AcceptedAuthority.trimEnd (h : AcceptedAuthority authority) :
    trimEndMatches '/' (authority ++ ['/']) = authority := by
  have hLast : authority.getLast? ≠ some '/' := fun hLast => h.slash (List.mem_of_getLast? hLast)
  rw [trimEndMatches, List.rdropWhile_concat_pos _ _ _ (by simp)]
  exact trimEndMatches_eq_self hLast

theorem authority_endpointOf (transport : PeerTransport) (h : AcceptedAuthority authority) :
    (endpointOf transport authority).authority = authority := by
  rw [PeerEndpoint.authority, splitOnce_url, Option.map_some, Option.getD_some, h.trimEnd]

theorem takeWhile_eq_self {c : Char} {s : Text} (hs : c ∉ s) : s.takeWhile (· ≠ c) = s := by
  rw [List.takeWhile_eq_self_iff]
  intro d hd
  simpa using fun hEq : d = c => hs (hEq ▸ hd)

theorem takeWhile_append {c : Char} {s : Text} (hs : c ∉ s) (rest : Text) :
    (s ++ c :: rest).takeWhile (· ≠ c) = s ∧ (s ++ c :: rest).dropWhile (· ≠ c) = c :: rest := by
  have hAll : ∀ d ∈ s, decide (d ≠ c) = true := by
    intro d hd
    simpa using fun hEq : d = c => hs (hEq ▸ hd)
  rw [List.takeWhile_append_of_pos hAll, List.dropWhile_append_of_pos hAll]
  simp

theorem hostOf_slash (h : '/' ∉ authority) : hostOf (authority ++ ['/']) = hostOf authority := by
  unfold hostOf
  rw [head_splitOn, head_splitOn, (takeWhile_append h []).1, takeWhile_eq_self h]
  rfl

theorem hostOf_bracket {rest : Text} (h : '/' ∉ '[' :: rest) :
    hostOf ('[' :: rest) = (some (rest.takeWhile (· ≠ ']'))).filter fun host => !host.isEmpty := by
  unfold hostOf
  rw [head_splitOn, takeWhile_eq_self h, ← head_splitOn]
  rfl

theorem hostOf_plain (h : '/' ∉ authority) (hHead : authority.head? ≠ some '[') :
    hostOf authority =
      (some (authority.takeWhile (· ≠ ':'))).filter fun host => !host.isEmpty := by
  unfold hostOf
  rw [head_splitOn, takeWhile_eq_self h]
  dsimp only [Option.getD_some]
  split
  · exact absurd rfl hHead
  · rw [head_splitOn]

/-- The host of an accepted authority is a bracketed literal, or stands before the first colon. -/
theorem AcceptedAuthority.host_cases (h : AcceptedAuthority authority) : ∃ host, hostOf authority = some host ∧
    (∀ c ∈ host, isAuthorityChar c = true) ∧ hasEmptyLabel host = false ∧
      ((∃ addr, parseIpv6Addr host = some addr) ∨ ':' ∉ host ∧ host.head? ≠ some '[') := by
  obtain ⟨host, hHost⟩ := Option.isSome_iff_exists.mp h.host
  have hLabels : hasEmptyLabel host = false := by simpa [hHost] using h.labels
  refine ⟨host, hHost, ?_⟩
  cases authority with
  | nil => exact absurd rfl h.nonempty
  | cons c rest =>
    by_cases hBracket : c = '['
    · subst hBracket
      rw [hostOf_bracket h.slash, Option.filter_some] at hHost
      split at hHost
      · next hNonempty =>
        cases hHost
        refine ⟨fun d hd => h.chars d (List.mem_cons_of_mem _ ((List.takeWhile_sublist _).mem hd)),
          hLabels, .inl ?_⟩
        have hFit := h.brackets
        rw [bracketsFit, splitOnce_singleton] at hFit
        split at hFit
        · next hEq =>
          split at hEq
          · cases hEq
            simp only [Bool.and_eq_true, Bool.or_eq_true] at hFit
            exact Option.isSome_iff_exists.mp (hFit.2.resolve_left (by simpa using hNonempty))
          · cases hEq
        · cases hFit
      · cases hHost
    · have hHead : (c :: rest).head? ≠ some '[' := by simpa using hBracket
      rw [hostOf_plain h.slash hHead, Option.filter_some] at hHost
      split at hHost
      · cases hHost
        refine ⟨fun d hd => h.chars d ((List.takeWhile_sublist _).mem hd), hLabels, .inr ⟨?_, ?_⟩⟩
        · intro hColon
          have hNot := List.mem_takeWhile_imp hColon
          simp at hNot
        · rw [List.takeWhile_cons]
          split
          · exact hHead
          · simp
      · cases hHost

end Authority

/-- What a name is that stands for a host in canonical form. -/
structure NameText (name : Text) : Prop where
  chars : ∀ c ∈ name, isAuthorityChar c = true
  colon : ':' ∉ name
  bracket : name.head? ≠ some '['
  labels : [] ∉ name.splitOn '.'
  lower : toAsciiLowercase name = name
  literal : parseIpAddr name = none

def HostKey.Sound : HostKey → Prop
  | .ip _ => True
  | .name text => NameText text

theorem labels_plainHost {host : Text} (hLabels : hasEmptyLabel host = false)
    (hHead : host.head? ≠ some '[') : [] ∉ (plainHost host).splitOn '.' := by
  have hTrimmed : (trimEndMatches '.' host).head? ≠ some '[' := fun hBracket =>
    hHead (head_of_head_trimEndMatches hBracket)
  simp only [hasEmptyLabel, Bool.and_eq_false_iff, Bool.or_eq_false_iff, decide_eq_false_iff_not,
    not_not] at hLabels
  obtain hBracket | ⟨-, hAny⟩ := hLabels
  · exact absurd hBracket hTrimmed
  · rw [plainHost, toAsciiLowercase, splitOn_map fun _ => toLower_eq_dot]
    intro hIn
    obtain ⟨label, hLabel, hEmpty⟩ := List.mem_map.mp hIn
    obtain rfl := List.map_eq_nil_iff.mp hEmpty
    have hNot := List.any_eq_false.mp hAny [] hLabel
    exact hNot rfl

theorem hostKey_of_parseIpv6Addr {host : Text} {addr : Ipv6Addr}
    (h : parseIpv6Addr host = some addr) : hostKey host = .ip (.v6 addr) := by
  have hPlain : plainHost host = host.map Char.toLower := by
    rw [plainHost, trimEndMatches_eq_self (getLast_of_parseIpv6Addr h)]
    rfl
  have hParse : parseIpAddr (plainHost host) = some (.v6 addr) := by
    rw [hPlain]
    exact parseIpAddr_of_parseIpv6Addr ((parseIpv6Addr_toLower host).trans h)
  rw [hostKey, nameKey, hParse]
  rfl

/-- What the readers of an address rely on in its host. -/
structure HostText (host : Text) : Prop where
  chars : ∀ c ∈ host, isAuthorityChar c = true
  labels : [] ∉ (plainHost host).splitOn '.'
  key : (hostKey host).Sound

theorem AcceptedAuthority.hostText {authority : Text} (h : AcceptedAuthority authority) :
    ∃ host, hostOf authority = some host ∧ HostText host := by
  obtain ⟨host, hHost, hChars, hLabels, ⟨addr, hLiteral⟩ | ⟨hColon, hBracket⟩⟩ := h.host_cases
  · have hHead : host.head? ≠ some '[' := by
      intro hHead
      cases host with
      | nil => cases hHead
      | cons c host =>
        obtain rfl := Option.some.inj hHead
        rw [parseIpv6Addr_cons_eq_none (by decide) (by decide) (by decide)] at hLiteral
        cases hLiteral
    refine ⟨host, hHost, hChars, labels_plainHost hLabels hHead, ?_⟩
    rw [hostKey_of_parseIpv6Addr hLiteral]
    trivial
  · refine ⟨host, hHost, hChars, labels_plainHost hLabels hBracket, ?_⟩
    rw [hostKey, nameKey]
    cases hLiteral : parseIpAddr (plainHost host) with
    | some addr => trivial
    | none =>
      have hPlainBracket : (plainHost host).head? ≠ some '[' := by
        intro hHead
        rw [plainHost, toAsciiLowercase, List.head?_map, Option.map_eq_some_iff] at hHead
        obtain ⟨c, hc, hEq⟩ := hHead
        rw [(toLower_eq_iff (by decide)).mp hEq] at hc
        exact hBracket (head_of_head_trimEndMatches hc)
      have hPlainColon : ':' ∉ plainHost host := by
        intro hIn
        obtain ⟨c, hc, hEq⟩ := List.mem_map.mp hIn
        rw [(toLower_eq_iff (by decide)).mp hEq] at hc
        exact hColon (mem_of_mem_trimEndMatches hc)
      exact ⟨mem_plainHost hChars, hPlainColon, hPlainBracket, labels_plainHost hLabels hBracket,
        toAsciiLowercase_idem _, hLiteral⟩

theorem AcceptedAuthority.hostText_of {authority host : Text} (h : AcceptedAuthority authority)
    (hHost : hostOf authority = some host) : HostText host := by
  obtain ⟨host', hHost', hText⟩ := h.hostText
  rw [hHost] at hHost'
  exact Option.some.inj hHost' ▸ hText

/-! ### Canonical spellings -/

def portText (port : Option Nat) : Text := port.elim [] fun port => ':' :: Nat.toDigits 10 port

/-- The address that is spelled from an endpoint. -/
def spell (transport : PeerTransport) (key : HostKey) (port : Option Nat) : Text :=
  canonicalScheme transport ++ key.written ++ portText port

/-- A text that stands for itself before the port of an authority. -/
structure Unbracketed (text : Text) : Prop where
  chars : ∀ c ∈ text, isAuthorityChar c = true
  colon : ':' ∉ text
  bracket : text.head? ≠ some '['
  labels : [] ∉ text.splitOn '.'

theorem NameText.unbracketed {name : Text} (h : NameText name) : Unbracketed name :=
  ⟨h.chars, h.colon, h.bracket, h.labels⟩

theorem isAuthorityChar_printIpAddr (addr : IpAddr) {c : Char} (hc : c ∈ printIpAddr addr) :
    isAuthorityChar c = true := by
  obtain rfl | rfl | hPrinted := mem_printIpAddr hc
  · decide
  · decide
  · exact isAuthorityChar_of_isPrinted hPrinted

theorem unbracketed_printIpv4Addr (addr : Ipv4Addr) : Unbracketed (printIpv4Addr addr) where
  chars _ hc := isAuthorityChar_printIpAddr (.v4 addr) hc
  colon hc := by
    obtain hDot | hPrinted := mem_printIpv4Addr hc
    · cases hDot
    · exact hPrinted.ne (by decide) rfl
  bracket hHead := by
    obtain hDot | hPrinted := mem_printIpv4Addr (List.mem_of_head? hHead)
    · cases hDot
    · exact hPrinted.ne (by decide) rfl
  labels := labels_printIpAddr (.v4 addr)

theorem mem_portText {port : Option Nat} {c : Char} (hc : c ∈ portText port) :
    isAuthorityChar c = true := by
  cases port with
  | none => cases hc
  | some n =>
    obtain rfl | hDigit := List.mem_cons.mp hc
    · decide
    · exact isAuthorityChar_of_isPrinted (mem_toDigits_printed (by decide) (by decide) hDigit)

theorem portAfter_portText {port : Option Nat} (hPort : ∀ n, port = some n → n < 65536) :
    portAfter (portText port) = some port := by
  cases port with
  | none => rfl
  | some n =>
    have hDigits : Nat.toDigits 10 n ≠ [] := Nat.toDigits_ne_nil
    have hParse := parseUnsigned_toDigits (hPort n rfl)
    rw [portText, Option.elim_some]
    cases hText : Nat.toDigits 10 n with
    | nil => exact absurd hText hDigits
    | cons c digits =>
      rw [hText] at hParse
      rw [portAfter, hParse]
      · rfl
      · simp

/-- What is spelled before a port is the host of the authority. -/
structure Spelled (authority host after : Text) : Prop where
  accepted : AcceptedAuthority authority
  host : hostOf authority = some host
  after : afterHost authority = some after

theorem hasEmptyLabel_eq_false {host : Text} (hLabels : [] ∉ host.splitOn '.') :
    hasEmptyLabel host = false := by
  obtain ⟨hNonempty, hLast⟩ := getLast_of_splitOn hLabels
  have hAny : (host.splitOn '.').any List.isEmpty = false := by
    rw [List.any_eq_false]
    intro label hLabel hEmpty
    rw [List.isEmpty_iff] at hEmpty
    exact hLabels (hEmpty ▸ hLabel)
  unfold hasEmptyLabel
  rw [trimEndMatches_eq_self hLast]
  simp [hNonempty, hAny]

theorem Unbracketed.spelled {text : Text} (h : Unbracketed text) (port : Option Nat) :
    Spelled (text ++ portText port) text (portText port) := by
  obtain ⟨hNonempty, -⟩ := getLast_of_splitOn h.labels
  have hChars : ∀ c ∈ text ++ portText port, isAuthorityChar c = true := by
    intro c hc
    obtain hc | hc := List.mem_append.mp hc
    · exact h.chars c hc
    · exact mem_portText hc
  have hSlash : '/' ∉ text ++ portText port := fun hIn =>
    ne_slash_of_isAuthorityChar (hChars '/' hIn) rfl
  have hHead : (text ++ portText port).head? ≠ some '[' := by
    rw [List.head?_append_of_ne_nil _ hNonempty]
    exact h.bracket
  have hSplit : (text ++ portText port).takeWhile (· ≠ ':') = text ∧
      (text ++ portText port).dropWhile (· ≠ ':') = portText port := by
    cases port with
    | none =>
      rw [portText, Option.elim_none, List.append_nil, takeWhile_eq_self h.colon,
        List.dropWhile_eq_nil_iff]
      refine ⟨rfl, fun c hc => ?_⟩
      simpa using fun hEq : c = ':' => h.colon (hEq ▸ hc)
    | some n => exact takeWhile_append h.colon _
  have hHost : hostOf (text ++ portText port) = some text := by
    rw [hostOf_plain hSlash hHead, hSplit.1, Option.filter_some, if_pos (by simpa using hNonempty)]
  refine ⟨⟨by simp [hNonempty], hChars, ?_, ?_, by rw [hHost]; rfl⟩, hHost, ?_⟩
  · unfold bracketsFit
    split
    · next hEq =>
      rw [hEq] at hHead
      exact absurd rfl hHead
    · rfl
  · rw [hHost]
    exact hasEmptyLabel_eq_false h.labels
  · unfold afterHost
    split
    · next hEq =>
      rw [hEq] at hHead
      exact absurd rfl hHead
    · rw [hSplit.2]

theorem spelled_bracketed (addr : Ipv6Addr) (port : Option Nat) :
    Spelled ('[' :: (printIpv6Addr addr ++ [']']) ++ portText port) (printIpv6Addr addr)
      (portText port) := by
  have hLabels : [] ∉ (printIpv6Addr addr).splitOn '.' := labels_printIpAddr (.v6 addr)
  obtain ⟨hNonempty, -⟩ := getLast_of_splitOn hLabels
  have hText : '[' :: (printIpv6Addr addr ++ [']']) ++ portText port =
      '[' :: (printIpv6Addr addr ++ ']' :: portText port) := by simp
  rw [hText]
  have hChars : ∀ c ∈ '[' :: (printIpv6Addr addr ++ ']' :: portText port),
      isAuthorityChar c = true := by
    intro c hc
    rw [List.mem_cons, List.mem_append, List.mem_cons] at hc
    obtain rfl | hc | rfl | hc := hc
    · decide
    · exact isAuthorityChar_printIpAddr (.v6 addr) hc
    · decide
    · exact mem_portText hc
  have hSlash : '/' ∉ '[' :: (printIpv6Addr addr ++ ']' :: portText port) := fun hIn =>
    ne_slash_of_isAuthorityChar (hChars '/' hIn) rfl
  have hClose : ']' ∉ printIpv6Addr addr := by
    intro hc
    obtain hDot | hColon | hPrinted := mem_printIpv6Addr hc
    · cases hDot
    · cases hColon
    · exact hPrinted.ne (by decide) rfl
  have hSplit : splitOnce [']'] (printIpv6Addr addr ++ ']' :: portText port) =
      some (printIpv6Addr addr, portText port) := splitOnce_append hClose _
  have hHost : hostOf ('[' :: (printIpv6Addr addr ++ ']' :: portText port)) =
      some (printIpv6Addr addr) := by
    rw [hostOf_bracket hSlash, (takeWhile_append hClose _).1, Option.filter_some,
      if_pos (by simpa using hNonempty)]
  refine ⟨⟨by simp, hChars, ?_, ?_, by rw [hHost]; rfl⟩, hHost, ?_⟩
  · rw [bracketsFit, hSplit]
    cases port <;> simp [portText, parseIpv6Addr_printIpv6Addr]
  · rw [hHost]
    exact hasEmptyLabel_eq_false hLabels
  · rw [afterHost, hSplit]
    rfl

theorem HostKey.Sound.spelled {key : HostKey} (h : key.Sound) (port : Option Nat) :
    Spelled (key.written ++ portText port) key.text (portText port) := by
  cases key with
  | name text => exact (NameText.unbracketed h).spelled port
  | ip addr =>
    cases addr with
    | v4 addr => exact (unbracketed_printIpv4Addr addr).spelled port
    | v6 addr => exact spelled_bracketed addr port

theorem declared_spell {authority : Text} (h : AcceptedAuthority authority) (transport : PeerTransport) :
    declared (trim (canonicalScheme transport ++ authority)) = .ok (transport, authority) := by
  have hSpace : ∀ c ∈ canonicalScheme transport ++ authority, isWhitespace c = false := by
    intro c hc
    obtain hc | hc := List.mem_append.mp hc
    · have hAll : (canonicalScheme transport).all (fun c => !isWhitespace c) = true := by
        cases transport <;> decide
      simpa using List.all_eq_true.mp hAll c hc
    · exact isWhitespace_of_isAuthorityChar (h.chars c hc)
  rw [trim_eq_self hSpace, declared]
  cases transport with
  | plain =>
    have hNone : splitOnce SCHEME_END authority = none := splitOnce_eq_none (by decide) h.slash
    rw [canonicalScheme, List.nil_append, hNone]
  | tls =>
    have hText : canonicalScheme .tls ++ authority =
        ['w', 's', 's'] ++ (SCHEME_END ++ authority) := List.append_assoc _ _ _
    have hSplit : splitOnce SCHEME_END (canonicalScheme .tls ++ authority) =
        some (['w', 's', 's'], authority) := by
      rw [hText]
      exact splitOnce_append (by decide) authority
    rw [hSplit]
    rfl

theorem HostKey.Sound.hostKey_text {key : HostKey} (h : key.Sound) : hostKey key.text = key := by
  have hPlain : ∀ text : Text, [] ∉ text.splitOn '.' → toAsciiLowercase text = text →
      plainHost text = text := by
    intro text hLabels hLower
    rw [plainHost, trimEndMatches_eq_self (getLast_of_splitOn hLabels).2, hLower]
  cases key with
  | name text =>
    have hName : NameText text := h
    rw [HostKey.text, hostKey, hPlain text hName.labels hName.lower, nameKey, hName.literal]
    rfl
  | ip addr =>
    rw [HostKey.text, hostKey, hPlain _ (labels_printIpAddr addr) (toLower_printIpAddr addr), nameKey,
      parseIpAddr_printIpAddr]
    rfl

theorem HostKey.text_injective {key key' : HostKey} (h : key.Sound) (h' : key'.Sound)
    (hText : key.text = key'.text) : key = key' := by
  rw [← h.hostKey_text, hText, h'.hostKey_text]

theorem toOption_eq_some {α ε : Type} {result : Except ε α} {a : α} :
    result.toOption = some a ↔ result = .ok a := by
  cases result <;> simp [Except.toOption]

theorem HostText.normalized {host : Text} (h : HostText host) :
    Server.normalized host = plainHost host := normalized_eq h.chars

theorem written_hostKey (host : Text) :
    ((parseIpAddr (plainHost host)).map bracketed).getD (plainHost host) = (hostKey host).written := by
  rw [hostKey, nameKey]
  cases parseIpAddr (plainHost host) <;> rfl

theorem text_hostKey (host : Text) :
    ((parseIpAddr (plainHost host)).map printIpAddr).getD (plainHost host) = (hostKey host).text := by
  rw [hostKey, nameKey]
  cases parseIpAddr (plainHost host) <;> rfl

/-- The parts an address is read into. -/
structure Reads (addr : Text) (transport : PeerTransport) (authority host : Text)
    (port : Option Nat) : Prop where
  declared : declared (trim addr) = .ok (transport, authority)
  accepted : AcceptedAuthority authority
  host : hostOf authority = some host
  port : (afterHost authority).bind portAfter = some port

theorem canonicalMemberAddr_eq_some_iff {addr c : Text} :
    canonicalMemberAddr addr = some c ↔ ∃ transport authority host port,
      Reads addr transport authority host port ∧
        c = spell transport (hostKey host) (port.filter (· ≠ transport.defaultPort)) := by
  simp only [canonicalMemberAddr, Option.bind_eq_bind, Option.bind_eq_some_iff, toOption_eq_some,
    parse_eq_ok_iff]
  constructor
  · rintro ⟨e, ⟨transport, authority, hDeclared, hAccepted, rfl⟩, parts, hParts, host, hHost, after,
      hAfter, port, hPort, hEq⟩
    rw [splitOnce_url, Option.some.injEq] at hParts
    obtain rfl := hParts
    dsimp only at hHost hAfter hEq
    rw [hAccepted.trimEnd] at hHost hAfter
    have hText : HostText host := hAccepted.hostText_of hHost
    refine ⟨transport, authority, host, port, ⟨hDeclared, hAccepted, hHost, ?_⟩, ?_⟩
    · rw [hAfter]
      exact hPort
    · rw [hText.normalized, written_hostKey] at hEq
      exact (Option.some.inj hEq).symm
  · rintro ⟨transport, authority, host, port, ⟨hDeclared, hAccepted, hHost, hPort⟩, rfl⟩
    obtain ⟨after, hAfter, hPort⟩ := Option.bind_eq_some_iff.mp hPort
    have hText : HostText host := hAccepted.hostText_of hHost
    refine ⟨_, ⟨transport, authority, hDeclared, hAccepted, rfl⟩, _, splitOnce_url transport authority,
      host, ?_, after, ?_, port, hPort, ?_⟩
    · rw [hAccepted.trimEnd, hHost]
    · rw [hAccepted.trimEnd, hAfter]
    · rw [hText.normalized, written_hostKey]
      rfl

namespace Reads

variable {addr authority host : Text} {transport : PeerTransport} {port : Option Nat}

theorem parse (h : Reads addr transport authority host port) :
    PeerEndpoint.parse addr = .ok (endpointOf transport authority) :=
  parse_eq_ok_iff.mpr ⟨transport, authority, h.declared, h.accepted, rfl⟩

theorem endpoint_host (h : Reads addr transport authority host port) :
    (endpointOf transport authority).host = some host := by
  rw [PeerEndpoint.host, authority_endpointOf transport h.accepted, h.host]

theorem endpoint_port (h : Reads addr transport authority host port) :
    (endpointOf transport authority).port = some (port.getD transport.defaultPort) := by
  rw [PeerEndpoint.port, authority_endpointOf transport h.accepted, h.port]
  rfl

theorem hostText (h : Reads addr transport authority host port) : HostText host :=
  h.accepted.hostText_of h.host

theorem port_lt (h : Reads addr transport authority host port) {n : Nat} (hPort : port = some n) :
    n < 65536 := by
  obtain ⟨after, -, hAfter⟩ := Option.bind_eq_some_iff.mp h.port
  subst hPort
  unfold portAfter at hAfter
  split at hAfter
  · cases hAfter
  · obtain ⟨m, hParse, hEq⟩ := Option.map_eq_some_iff.mp hAfter
    obtain rfl := Option.some.inj hEq
    exact lt_of_parseUnsigned hParse
  · cases hAfter

/-- An address is read one way. -/
theorem unique {authority' host' : Text} {transport' : PeerTransport} {port' : Option Nat}
    (h : Reads addr transport authority host port)
    (h' : Reads addr transport' authority' host' port') :
    transport = transport' ∧ host = host' ∧ port = port' := by
  have hDeclared := h.declared.symm.trans h'.declared
  obtain ⟨rfl, rfl⟩ := Prod.mk.inj (Except.ok.inj hDeclared)
  exact ⟨rfl, Option.some.inj (h.host.symm.trans h'.host), Option.some.inj (h.port.symm.trans h'.port)⟩

end Reads

theorem reads_spell {key : HostKey} (hKey : key.Sound) {port : Option Nat}
    (hPort : ∀ n, port = some n → n < 65536) (transport : PeerTransport) :
    Reads (spell transport key port) transport (key.written ++ portText port) key.text port := by
  have hSpelled := hKey.spelled port
  refine ⟨?_, hSpelled.accepted, hSpelled.host, ?_⟩
  · rw [spell, List.append_assoc]
    exact declared_spell hSpelled.accepted transport
  · rw [hSpelled.after]
    exact portAfter_portText hPort

section Spelling

variable {addr authority host : Text} {transport : PeerTransport} {port : Option Nat}

theorem getD_filter_ne (port : Option Nat) (d : Nat) :
    (port.filter (· ≠ d)).getD d = port.getD d := by
  cases port with
  | none => rfl
  | some n =>
    rw [Option.filter_some]
    split
    · rfl
    · next hDefault =>
      have hEq : n = d := by simpa using hDefault
      exact hEq.symm

theorem filter_ne_idem (port : Option Nat) (d : Nat) :
    (port.filter (· ≠ d)).filter (· ≠ d) = port.filter (· ≠ d) := by
  rw [Option.filter_filter]
  simp

/-- A port other than the default is what the effective port says. -/
theorem filter_ne_eq_iff {port port' : Option Nat} {d : Nat} :
    port.filter (· ≠ d) = port'.filter (· ≠ d) ↔ port.getD d = port'.getD d := by
  constructor
  · intro hEq
    rw [← getD_filter_ne, hEq, getD_filter_ne]
  · have hRead : ∀ port : Option Nat,
        port.filter (· ≠ d) = (some (port.getD d)).filter (· ≠ d) := by
      intro port
      cases port with
      | none => simp [Option.filter_some]
      | some n => rfl
    intro hEq
    rw [hRead port, hRead port', hEq]

theorem Reads.spelling (h : Reads addr transport authority host port) :
    Reads (spell transport (hostKey host) (port.filter (· ≠ transport.defaultPort))) transport
      ((hostKey host).written ++ portText (port.filter (· ≠ transport.defaultPort)))
      (hostKey host).text (port.filter (· ≠ transport.defaultPort)) := by
  refine reads_spell h.hostText.key ?_ transport
  intro n hFilter
  exact h.port_lt (Option.eq_some_of_filter_eq_some hFilter)

theorem Reads.sameEndpoint_iff {authority' addr' host' : Text} {transport' : PeerTransport}
    {port' : Option Nat} (h : Reads addr transport authority host port)
    (h' : Reads addr' transport' authority' host' port') :
    SameEndpoint (endpointOf transport authority) (endpointOf transport' authority') ↔
      transport = transport' ∧ hostKey host = hostKey host' ∧
        port.getD transport.defaultPort = port'.getD transport'.defaultPort := by
  constructor
  · rintro ⟨hTransport, ⟨h₁, h₂, hHost, hHost', hSame⟩, p, hPort, hPort'⟩
    rw [h.endpoint_host, Option.some.injEq] at hHost
    rw [h'.endpoint_host, Option.some.injEq] at hHost'
    rw [h.endpoint_port, Option.some.injEq] at hPort
    rw [h'.endpoint_port, Option.some.injEq] at hPort'
    subst hHost hHost'
    exact ⟨hTransport, sameHost_iff.mp hSame, hPort.trans hPort'.symm⟩
  · rintro ⟨hTransport, hHost, hPort⟩
    exact ⟨hTransport, ⟨host, host', h.endpoint_host, h'.endpoint_host, sameHost_iff.mpr hHost⟩,
      _, h.endpoint_port, hPort ▸ h'.endpoint_port⟩

/-- Two addresses are spelled alike when they name one endpoint, and only then. -/
theorem Reads.spell_eq_iff {authority' addr' host' : Text} {transport' : PeerTransport}
    {port' : Option Nat} (h : Reads addr transport authority host port)
    (h' : Reads addr' transport' authority' host' port') :
    spell transport (hostKey host) (port.filter (· ≠ transport.defaultPort)) =
        spell transport' (hostKey host') (port'.filter (· ≠ transport'.defaultPort)) ↔
      SameEndpoint (endpointOf transport authority) (endpointOf transport' authority') := by
  rw [h.sameEndpoint_iff h']
  constructor
  · intro hSpell
    have hReads := h.spelling
    rw [hSpell] at hReads
    obtain ⟨rfl, hText, hPort⟩ := hReads.unique h'.spelling
    exact ⟨rfl, HostKey.text_injective h.hostText.key h'.hostText.key hText, filter_ne_eq_iff.mp hPort⟩
  · rintro ⟨rfl, hKey, hPort⟩
    rw [hKey, filter_ne_eq_iff.mpr hPort]

theorem canonicalMemberAddr_spell (h : Reads addr transport authority host port) :
    canonicalMemberAddr (spell transport (hostKey host) (port.filter (· ≠ transport.defaultPort))) =
      some (spell transport (hostKey host) (port.filter (· ≠ transport.defaultPort))) := by
  refine canonicalMemberAddr_eq_some_iff.mpr ⟨_, _, _, _, h.spelling, ?_⟩
  rw [h.hostText.key.hostKey_text, filter_ne_idem]

theorem sameEndpoint_spelling (h : Reads addr transport authority host port) :
    SameEndpoint (endpointOf transport authority) (endpointOf transport
      ((hostKey host).written ++ portText (port.filter (· ≠ transport.defaultPort)))) := by
  rw [h.sameEndpoint_iff h.spelling]
  exact ⟨rfl, h.hostText.key.hostKey_text.symm, (getD_filter_ne _ _).symm⟩

end Spelling

/-! ### Trust units and certificate names -/

def memberKey (addr : Bytes) : Option HostKey :=
  (memberHost addr).map fun host => nameKey (normalized host)

def certKey (name : Bytes) : Option HostKey := do
  let name ← fromUtf8 name
  if ((stripSuffix '.' (trim name.toList)).splitOn '.').any List.isEmpty then none
  else if (normalized name.toList).isEmpty then none
  else some (nameKey (normalized name.toList))

section TrustUnits

variable {addr : Bytes}

theorem memberHost_eq_some {lower : Text} (h : memberHost addr = some lower) :
    ∃ host, HostText host ∧ lower = toAsciiLowercase host := by
  simp only [memberHost, Option.bind_eq_bind, Option.bind_eq_some_iff, toOption_eq_some,
    parse_eq_ok_iff] at h
  obtain ⟨text, -, e, ⟨transport, authority, -, hAccepted, rfl⟩, hHost⟩ := h
  rw [splitOnce_url, Option.map_some, Option.getD_some, hostOf_slash hAccepted.slash,
    Option.map_eq_some_iff] at hHost
  obtain ⟨host, hHost, rfl⟩ := hHost
  exact ⟨host, hAccepted.hostText_of hHost, rfl⟩

theorem normalized_lower {host : Text} (h : HostText host) :
    normalized (toAsciiLowercase host) = plainHost host := by
  rw [normalized_eq, plainHost_lower]
  intro c hc
  obtain ⟨d, hd, rfl⟩ := List.mem_map.mp hc
  exact isAuthorityChar_toLower (h.chars d hd)

theorem memberKey_eq_some {key : HostKey} (h : memberKey addr = some key) : key.Sound := by
  obtain ⟨lower, hLower, rfl⟩ := Option.map_eq_some_iff.mp h
  obtain ⟨host, hText, rfl⟩ := memberHost_eq_some hLower
  rw [normalized_lower hText]
  exact hText.key

theorem memberTrustUnit_eq : memberTrustUnit addr = (memberKey addr).map HostKey.text := by
  rw [memberTrustUnit, memberKey, Option.map_map]
  refine Option.map_congr fun lower hLower => ?_
  obtain ⟨host, hText, rfl⟩ := memberHost_eq_some hLower
  dsimp only [Function.comp]
  rw [normalized_lower hText]
  exact text_hostKey host

theorem certNamesMember_iff {name : Bytes} : certNamesMember name addr = true ↔
    ∃ key, certKey name = some key ∧ memberKey addr = some key := by
  unfold certNamesMember certKey memberKey
  cases fromUtf8 name with
  | none => simp
  | some name =>
    simp only [Option.bind_eq_bind, Option.bind_some]
    by_cases hLabels : ((stripSuffix '.' (trim name.toList)).splitOn '.').any List.isEmpty = true
    · simp [hLabels]
    · by_cases hEmpty : (normalized name.toList).isEmpty = true
      · simp [hLabels, hEmpty]
      · simp only [hLabels, hEmpty, if_false, Bool.false_eq_true, Option.some.injEq, exists_eq_left']
        cases memberHost addr with
        | none => simp
        | some host =>
          rw [sameName_iff, Option.map_some, Option.some.injEq]

theorem certKey_text {key : HostKey} (h : key.Sound) : certKey (encodeUtf8 key.text) = some key := by
  have hText : Unbracketed key.text ∨ ∃ addr, key = .ip addr := by
    cases key with
    | name text => exact .inl (NameText.unbracketed h)
    | ip addr => exact .inr ⟨addr, rfl⟩
  have hChars : ∀ c ∈ key.text, isAuthorityChar c = true := by
    obtain hName | ⟨addr, rfl⟩ := hText
    · exact hName.chars
    · exact fun c hc => isAuthorityChar_printIpAddr addr hc
  have hLabels : [] ∉ key.text.splitOn '.' := by
    obtain hName | ⟨addr, rfl⟩ := hText
    · exact hName.labels
    · exact labels_printIpAddr addr
  obtain ⟨hNonempty, hLast⟩ := getLast_of_splitOn hLabels
  have hAny : (key.text.splitOn '.').any List.isEmpty = false := by
    rw [List.any_eq_false]
    intro label hLabel hEmpty
    rw [List.isEmpty_iff] at hEmpty
    exact hLabels (hEmpty ▸ hLabel)
  have hTrim : trim key.text = key.text :=
    trim_eq_self fun c hc => isWhitespace_of_isAuthorityChar (hChars c hc)
  have hPlain : nameKey (normalized key.text) = key := by
    rw [normalized_eq hChars]
    exact h.hostKey_text
  have hFilled : normalized key.text ≠ [] := by
    intro hNil
    rw [normalized, hTrim, trimEndMatches_eq_self hLast, toAsciiLowercase, List.map_eq_nil_iff] at hNil
    exact hNonempty hNil
  rw [certKey, Json.fromUtf8_encodeUtf8, Option.bind_eq_bind, Option.bind_some, String.toList_ofList, hTrim,
    stripSuffix_eq_self hLast, hAny, if_neg (by decide), if_neg (by simpa using hFilled), hPlain]

theorem memberTrustUnit_eq_iff {addr' : Bytes} :
    memberTrustUnit addr = memberTrustUnit addr' ↔ memberKey addr = memberKey addr' := by
  rw [memberTrustUnit_eq, memberTrustUnit_eq]
  constructor
  · intro hUnit
    cases hKey : memberKey addr with
    | none =>
      cases hKey' : memberKey addr' with
      | none => rfl
      | some key' =>
        rw [hKey, hKey'] at hUnit
        cases hUnit
    | some key =>
      cases hKey' : memberKey addr' with
      | none =>
        rw [hKey, hKey'] at hUnit
        cases hUnit
      | some key' =>
        rw [hKey, hKey'] at hUnit
        rw [HostKey.text_injective (memberKey_eq_some hKey) (memberKey_eq_some hKey')
          (Option.some.inj hUnit)]
  · intro hKey
    rw [hKey]

theorem memberKey_eq_iff {addr' : Bytes} : memberKey addr = memberKey addr' ↔
    ∀ name, certNamesMember name addr = certNamesMember name addr' := by
  constructor
  · intro hKey name
    rw [Bool.eq_iff_iff, certNamesMember_iff, certNamesMember_iff, hKey]
  · intro hNames
    have hKeeps : ∀ {addr addr' : Bytes} {key : HostKey},
        (∀ name, certNamesMember name addr = certNamesMember name addr') →
          memberKey addr = some key → memberKey addr' = some key := by
      intro addr addr' key hNames hKey
      have hOwn := certKey_text (memberKey_eq_some hKey)
      have hAccepted : certNamesMember (encodeUtf8 key.text) addr' = true := by
        rw [← hNames, certNamesMember_iff]
        exact ⟨key, hOwn, hKey⟩
      obtain ⟨key', hCert, hMember⟩ := certNamesMember_iff.mp hAccepted
      rw [hOwn, Option.some.injEq] at hCert
      rw [hMember, hCert]
    ext key
    exact ⟨hKeeps hNames, hKeeps fun name => (hNames name).symm⟩

theorem memberTrustUnit_of_reads {addr authority host : Text} {transport : PeerTransport}
    {port : Option Nat} (h : Reads addr transport authority host port) :
    memberTrustUnit (encodeUtf8 addr) = some (hostKey host).text := by
  have hHost : memberHost (encodeUtf8 addr) = some (toAsciiLowercase host) := by
    rw [memberHost, Json.fromUtf8_encodeUtf8, Option.bind_eq_bind, Option.bind_some, String.toList_ofList,
      h.parse]
    change (hostOf (((splitOnce SCHEME_END (endpointOf transport authority).url).map Prod.snd).getD _)).map
      toAsciiLowercase = _
    rw [splitOnce_url, Option.map_some, Option.getD_some, hostOf_slash h.accepted.slash, h.host]
    rfl
  rw [memberTrustUnit_eq, memberKey, hHost, Option.map_some, Option.map_some, normalized_lower h.hostText]
  rfl

end TrustUnits

/-- One endpoint is one member: the canonical address of an endpoint is its own and is
shared by the addresses of that endpoint alone, and the trust unit of an address, which
follows from it, is shared by the addresses the same certificate names establish. -/
theorem one_endpoint_one_member :
    (∀ addr c, canonicalMemberAddr addr = some c → canonicalMemberAddr c = some c ∧
      ∃ e e', PeerEndpoint.parse addr = .ok e ∧ PeerEndpoint.parse c = .ok e' ∧ SameEndpoint e e') ∧
    (∀ addr addr' c c', canonicalMemberAddr addr = some c → canonicalMemberAddr addr' = some c' →
      ∃ e e', PeerEndpoint.parse addr = .ok e ∧ PeerEndpoint.parse addr' = .ok e' ∧
        (c = c' ↔ SameEndpoint e e')) ∧
    (∀ addr addr' c, canonicalMemberAddr addr = some c → canonicalMemberAddr addr' = some c →
      ∃ trustUnit, memberTrustUnit (encodeUtf8 addr) = some trustUnit ∧
        memberTrustUnit (encodeUtf8 addr') = some trustUnit) ∧
    ∀ addr addr' : Bytes, memberTrustUnit addr = memberTrustUnit addr' ↔
      ∀ name : Bytes, certNamesMember name addr = certNamesMember name addr' := by
  refine ⟨?_, ?_, ?_, fun addr addr' => memberTrustUnit_eq_iff.trans memberKey_eq_iff⟩
  · intro addr c hCanonical
    obtain ⟨transport, authority, host, port, hReads, rfl⟩ := canonicalMemberAddr_eq_some_iff.mp hCanonical
    exact ⟨canonicalMemberAddr_spell hReads, _, _, hReads.parse, hReads.spelling.parse,
      sameEndpoint_spelling hReads⟩
  · intro addr addr' c c' hCanonical hCanonical'
    obtain ⟨transport, authority, host, port, hReads, rfl⟩ := canonicalMemberAddr_eq_some_iff.mp hCanonical
    obtain ⟨transport', authority', host', port', hReads', rfl⟩ :=
      canonicalMemberAddr_eq_some_iff.mp hCanonical'
    exact ⟨_, _, hReads.parse, hReads'.parse, hReads.spell_eq_iff hReads'⟩
  · intro addr addr' c hCanonical hCanonical'
    obtain ⟨transport, authority, host, port, hReads, rfl⟩ := canonicalMemberAddr_eq_some_iff.mp hCanonical
    obtain ⟨transport', authority', host', port', hReads', hSpell⟩ :=
      canonicalMemberAddr_eq_some_iff.mp hCanonical'
    obtain ⟨-, hHost, -⟩ := (hReads.sameEndpoint_iff hReads').mp ((hReads.spell_eq_iff hReads').mp hSpell)
    refine ⟨_, memberTrustUnit_of_reads hReads, ?_⟩
    rw [memberTrustUnit_of_reads hReads', hHost]

/-- Two spellings of one endpoint. -/
theorem one_endpoint_one_member_spellings :
    ∃ e e', PeerEndpoint.parse "WS://A.Ex..:09".toList = .ok e ∧
      PeerEndpoint.parse "a.ex:9".toList = .ok e' ∧ SameEndpoint e e' := by
  have hSpelled : canonicalMemberAddr "WS://A.Ex..:09".toList = some "a.ex:9".toList := by
    decide +kernel
  exact (one_endpoint_one_member.1 _ _ hSpelled).2

end Server

end CrdtSync
