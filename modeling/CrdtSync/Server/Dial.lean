import CrdtSync.Core.Ids
import CrdtSync.Core.Json
import CrdtSync.Lib.IpLiterals

/-!
# Advertise addresses

A member is named by the address it advertises: a transport, a host and a port. The
address is read by the dialer, reduced to one spelling for placement, and to its host for
the trust units and the certificate binding.
-/

namespace CrdtSync

namespace Server

open Lib.Text Lib.Ip

abbrev Text := Lib.Text

inductive PeerTransport
  | plain
  | tls
deriving DecidableEq

def PeerTransport.scheme : PeerTransport → Text
  | plain => ['w', 's']
  | tls => ['w', 's', 's']

def PeerTransport.defaultPort : PeerTransport → Nat
  | plain => 80
  | tls => 443

inductive BadPeerAddress
  | empty
  | noHost
  | notAnAuthority
  | unknownScheme (scheme : Text)
deriving DecidableEq

/-- An advertise address resolved into the URL a dial uses and the transport it speaks. -/
structure PeerEndpoint where
  url : Text
  transport : PeerTransport
deriving DecidableEq

def SCHEME_END : Text := [':', '/', '/']

def hostOf (authority : Text) : Option Text :=
  let authority := (authority.splitOn '/').head?.getD authority
  let host :=
    match authority with
    | '[' :: rest => (rest.splitOn ']').head?
    | authority => (authority.splitOn ':').head?
  host.filter fun host => !host.isEmpty

/-- A character a host or a port is written with; no byte outside ASCII is part of one. -/
def isAuthorityChar (c : Char) : Bool :=
  c.isAlphanum || c = '-' || c = '.' || c = ':' || c = '[' || c = ']' || c = '_'

/-- Brackets hold a version 6 literal or nothing, and only a port follows them. -/
def bracketsFit : Text → Bool
  | '[' :: after =>
    match splitOnce [']'] after with
    | some (host, rest) =>
      (rest.isEmpty || rest.head? = some ':') && (host.isEmpty || (parseIpv6Addr host).isSome)
    | none => false
  | _ => true

def hasEmptyLabel (host : Text) : Bool :=
  let host := trimEndMatches '.' host
  host.head? ≠ some '[' && (host.isEmpty || (host.splitOn '.').any List.isEmpty)

def declared (addr : Text) : Except BadPeerAddress (PeerTransport × Text) :=
  match splitOnce SCHEME_END addr with
  | some (scheme, rest) =>
    if toAsciiLowercase scheme = ['w', 's'] then .ok (.plain, rest)
    else if toAsciiLowercase scheme = ['w', 's', 's'] then .ok (.tls, rest)
    else .error (.unknownScheme scheme)
  | none => .ok (.plain, addr)

namespace PeerEndpoint

def parse (addr : Text) : Except BadPeerAddress PeerEndpoint :=
  match declared (trim addr) with
  | .error e => .error e
  | .ok (transport, authority) =>
    if authority.isEmpty then .error .empty
    else if !authority.all isAuthorityChar then .error .notAnAuthority
    else if !bracketsFit authority then .error .notAnAuthority
    else if (hostOf authority).any hasEmptyLabel then .error .notAnAuthority
    else if (hostOf authority).isNone then .error .noHost
    else .ok ⟨transport.scheme ++ (SCHEME_END ++ (authority ++ ['/'])), transport⟩

def isTls (e : PeerEndpoint) : Bool := e.transport = .tls

end PeerEndpoint

def memberHost (addr : Bytes) : Option Text := do
  let addr ← fromUtf8 addr
  let endpoint ← (PeerEndpoint.parse addr.toList).toOption
  let authority := ((splitOnce SCHEME_END endpoint.url).map Prod.snd).getD endpoint.url
  (hostOf authority).map toAsciiLowercase

/-- Trimmed, in lower case, and without its root label, however often it is written. -/
def normalized (name : Text) : Text := toAsciiLowercase (trimEndMatches '.' (trim name))

/-- What follows the host of an authority. -/
def afterHost : Text → Option Text
  | '[' :: after => (splitOnce [']'] after).map Prod.snd
  | authority => some (authority.dropWhile (· ≠ ':'))

/-- The port a host is followed by, if it is one: an absent port is no failure. -/
def portAfter : Text → Option (Option Nat)
  | [':'] => some none
  | ':' :: digits => (parseUnsigned 65536 digits).map some
  | _ => some none

/-- An address in the form an authority has it. -/
def bracketed : IpAddr → Text
  | .v6 v6 => '[' :: (printIpv6Addr v6 ++ [']'])
  | .v4 v4 => printIpv4Addr v4

/-- `ws` goes without saying. -/
def canonicalScheme : PeerTransport → Text
  | .tls => ['w', 's', 's'] ++ SCHEME_END
  | .plain => []

def canonicalMemberAddr (addr : Text) : Option Text := do
  let endpoint ← (PeerEndpoint.parse addr).toOption
  let parts ← splitOnce SCHEME_END endpoint.url
  let authority := trimEndMatches '/' parts.2
  let host ← hostOf authority
  let after ← afterHost authority
  let port ← portAfter after
  let port := port.filter (· ≠ endpoint.transport.defaultPort)
  let host := normalized host
  let host := ((parseIpAddr host).map bracketed).getD host
  some (canonicalScheme endpoint.transport ++ host ++
    port.elim [] fun port => ':' :: Nat.toDigits 10 port)

/-- The host a certificate vouches for, reduced to the form the binding compares. -/
def memberTrustUnit (addr : Bytes) : Option Text :=
  (memberHost addr).map fun host =>
    let host := normalized host
    ((parseIpAddr host).map printIpAddr).getD host

/-- Addresses are compared as addresses, and anything else as text. -/
def sameName (host name : Text) : Bool :=
  match parseIpAddr host, parseIpAddr name with
  | some host, some name => host = name
  | _, _ => host = name

/-- Whether a certificate's name establishes the member at an advertise address. -/
def certNamesMember (name addr : Bytes) : Bool :=
  match fromUtf8 name with
  | none => false
  | some name =>
    let withoutRoot := stripSuffix '.' (trim name.toList)
    if (withoutRoot.splitOn '.').any List.isEmpty then false
    else
      let name := normalized name.toList
      if name.isEmpty then false
      else
        match memberHost addr with
        | none => false
        | some host => sameName (normalized host) name

end Server

end CrdtSync
