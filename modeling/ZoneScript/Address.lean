import ZoneScript.Text.Integer
import ZoneScript.Text.Space
import ZoneScript.Text.Split

/-!
# Network addresses

Which texts are addresses of hosts and networks: IPv4 in dotted decimal, IPv6 in groups of hexadecimal
digits with at most one gap, each with an optional network part, and hardware addresses.
-/

namespace ZoneScript.Address

open Text

/-! ## IPv4 -/

/-- A number of up to three digits below 256, without a zero in front of other digits. -/
def readOctet? (cs : List Char) : Option (Nat × List Char) :=
  let digits := cs.takeWhile Char.isDigit
  if digits.length ≤ 3 && (digits.length ≤ 1 || digits.head? != some '0') then
    ((readNat? 10 digits).filter (· < 256)).map (·, cs.dropWhile Char.isDigit)
  else none

/-- The octets that follow, each after a point. -/
def readOctets? : Nat → List Char → Option (List Nat × List Char)
  | 0, cs => some ([], cs)
  | n + 1, '.' :: cs =>
    (readOctet? cs).bind fun (octet, rest) =>
      (readOctets? n rest).map fun (octets, rest) => (octet :: octets, rest)
  | _ + 1, _ => none

/-- Four octets at the start of a text. -/
def readIpv4? (cs : List Char) : Option (List Nat × List Char) :=
  (readOctet? cs).bind fun (octet, rest) =>
    (readOctets? 3 rest).map fun (octets, rest) => (octet :: octets, rest)

/-- The octets of an IPv4 address. -/
def ipv4? (cs : List Char) : Option (List Nat) :=
  match readIpv4? cs with
  | some (octets, []) => some octets
  | _ => none

/-- Whether the octets are a net mask: no bit is set after one that is not. -/
def isMask (octets : List Nat) : Bool :=
  let mask := octets.foldl (fun n octet => 256 * n + octet) 0
  (List.range 33).any fun length => mask == Nat.pow 2 32 - Nat.pow 2 length

/-! ## IPv6 -/

/-- One to four hexadecimal digits; gives what follows them. -/
def skipGroup? (cs : List Char) : Option (List Char) :=
  let isHex := fun c => (digitValue? 16 c).isSome
  let digits := cs.takeWhile isHex
  if 1 ≤ digits.length && digits.length ≤ 4 then some (cs.dropWhile isHex) else none

/-- Reads at most `limit` groups with colons between them; the last two may be written as an IPv4
address. Gives the number of groups, whether they ended so, and what follows. -/
def skipGroups : Nat → Bool → List Char → Nat × Bool × List Char
  | 0, _, cs => (0, false, cs)
  | limit + 1, first, cs =>
    let start? := if first then some cs else dropHead? [':'] cs
    match start? with
    | none => (0, false, cs)
    | some start =>
      match if 0 < limit then readIpv4? start else none with
      | some (_, rest) => (2, true, rest)
      | none =>
        match skipGroup? start with
        | none => (0, false, cs)
        | some rest =>
          let (count, dotted, rest) := skipGroups limit false rest
          (count + 1, dotted, rest)

/-- Whether the text is an IPv6 address: eight groups, or fewer with a gap between them. -/
def isIpv6 (cs : List Char) : Bool :=
  let (front, dotted, rest) := skipGroups 8 true cs
  if front = 8 then rest.isEmpty
  else if dotted then false
  else match rest with
    | ':' :: ':' :: rest =>
      let (_, _, rest) := skipGroups (7 - front) true rest
      rest.isEmpty
    | _ => false

/-! ## Networks and hardware -/

/-- Whether the text is the length of a network part of at most `bits`. -/
def isLength (bits : Nat) (cs : List Char) : Bool :=
  match readUnsigned? 8 cs with
  | some n => n ≤ bits
  | none => false

/-- Whether the text is an address of a host or network. An IPv4 network may be given by its mask. -/
def isNetwork (cs : List Char) : Bool :=
  match splitFirst '/' cs with
  | none => (ipv4? cs).isSome || isIpv6 cs
  | some (address, network) =>
    !network.contains '/' &&
      if (ipv4? address).isSome then
        match ipv4? network with
        | some octets => isMask octets
        | none => isLength 32 network
      else isIpv6 address && isLength 128 network

/-- Whether the text is a hardware address: six pairs of hexadecimal digits with colons. -/
def isHardware (cs : List Char) : Bool :=
  let parts := pieces (· == ':') cs
  parts.length == 6
    && parts.all fun part => part.length == 2 && part.all fun c => (digitValue? 16 c).isSome

end ZoneScript.Address
