import LogShipping.Decimal.Signed

/-!
# Stream addresses

A peer's connection is a URL: `redis://[user[:password]@]host[:port][/database]`, or `unix:///path`
(also `redis+unix:`) for a local socket, both with a query that may name the protocol, and for a
socket the database. A URL of any other kind is no address, and neither is one for an encrypted
connection.
-/

namespace LogShipping.Stream

inductive Address
  | network (host : String) (port : Nat) (database : Int)
  | socket (path : String) (database : Int)
  deriving Repr, DecidableEq

namespace Address

/-! ## Parts of a URL -/

/-- Tabs and line ends stand for nothing in a URL, and neither do blanks and control characters around
it. -/
def clean (text : String) : List Char :=
  let blank (c : Char) : Bool := c.toNat ≤ 32
  let inner := ((text.toList.dropWhile blank).reverse.dropWhile blank).reverse
  inner.filter fun c ↦ c != '\t' && c != '\n' && c != '\r'

/-- The text in front of the first character of a kind, and the text from it on. -/
def splitBefore (stop : Char → Bool) (text : List Char) : List Char × List Char :=
  (text.takeWhile (!stop ·), text.dropWhile (!stop ·))

/-- The text in front of the last character of a kind and the text behind it. -/
def splitLast (mark : Char) (text : List Char) : Option (List Char × List Char) :=
  let tail := text.reverse.takeWhile (· != mark)
  match text.reverse.dropWhile (· != mark) with
  | [] => none
  | _ :: front => some (front.reverse, tail.reverse)

def isSchemeLetter (c : Char) : Bool := c.isAlphanum || c == '+' || c == '-' || c == '.'

/-- The scheme in lower case, and what follows its colon. -/
def scheme? (text : List Char) : Option (String × List Char) :=
  match splitBefore (!isSchemeLetter ·) text with
  | (first :: more, ':' :: rest) =>
    if first.isAlpha then some (String.ofList ((first :: more).map Char.toLower), rest) else none
  | _ => none

/-- The octets a text stands for, each percent sign with two hexadecimal digits behind it one octet. -/
def decodePercent : List Char → Bytes
  | '%' :: high :: low :: rest =>
    match Bytes.hexValue? high, Bytes.hexValue? low with
    | some x, some y => UInt8.ofNat (16 * x + y) :: decodePercent rest
    | _, _ => 0x25 :: decodePercent (high :: low :: rest)
  | c :: rest => Bytes.ofText c.toString ++ decodePercent rest
  | [] => []

/-- The text spelled with percent signs, if it is one. -/
def decoded? (text : List Char) : Option String := (decodePercent text).text?

/-- The steps of a path without those that stand for the step before or for none. -/
def plainSteps (path : List Char) : List (List Char) :=
  (path.splitBy fun x y ↦ x != '/' && y != '/').foldl (fun steps step ↦
    if step = ['/'] then steps
    else
      match (decoded? step).getD "" with
      | "." => steps
      | ".." => steps.dropLast
      | _ => steps ++ [step]) []

/-! ## Hosts -/

/-- Up to four hexadecimal digits. -/
def isHexGroup (group : List Char) : Bool :=
  0 < group.length && group.length ≤ 4 && group.all fun c ↦ (Bytes.hexValue? c).isSome

/-- A number below 256 in decimal digits without a zero in front. -/
def isDecimalOctet (group : List Char) : Bool :=
  0 < group.length && group.length ≤ 3 && group.all Char.isDigit &&
    (group.length == 1 || group.head? != some '0') &&
    group.foldl (fun value c ↦ 10 * value + (c.toNat - 48)) 0 < 256

/-- The texts between marks. -/
def splitOn (mark : Char) : List Char → List (List Char)
  | [] => [[]]
  | c :: rest =>
    if c = mark then [] :: splitOn mark rest
    else
      match splitOn mark rest with
      | [] => [[c]]
      | part :: parts => (c :: part) :: parts

/-- How many groups of an address with colons a text holds. Only at the end may two of them be written
as four decimal numbers. -/
def groups? (atEnd : Bool) (text : List Char) : Option Nat :=
  if text.isEmpty then some 0
  else
    let parts := splitOn ':' text
    let last := parts.getLast?.getD []
    let octets := splitOn '.' last
    if atEnd && octets.length == 4 && octets.all isDecimalOctet && parts.dropLast.all isHexGroup then
      some (parts.length + 1)
    else if parts.all isHexGroup then some parts.length
    else none

/-- The text in front of the first two colons in a row and the text behind them. -/
def splitColons : List Char → Option (List Char × List Char)
  | ':' :: ':' :: rest => some ([], rest)
  | c :: rest => (splitColons rest).map fun (front, back) ↦ (c :: front, back)
  | [] => none

/-- Eight groups, or fewer of them around two colons in a row. -/
def isColonAddress (text : List Char) : Bool :=
  match splitColons text with
  | none => groups? true text == some 8
  | some (front, back) =>
    match groups? false front, groups? true back with
    | some x, some y => x + y ≤ 7
    | _, _ => false

/-- The characters no host may hold. -/
def isForbidden (c : Char) : Bool := "\x00\t\n\r #/:<>?@[\\]^|".toList.contains c

def isHost (text : List Char) : Bool :=
  match text with
  | '[' :: rest => rest.getLast? == some ']' && isColonAddress rest.dropLast
  | _ => text.all (!isForbidden ·)

/-- The host, and the colon and port behind it. A colon in brackets belongs to the host. -/
def splitHost : (bracketed : Bool) → List Char → List Char × List Char
  | _, [] => ([], [])
  | bracketed, c :: rest =>
    if c = ':' && !bracketed then ([], c :: rest)
    else
      let bracketed := if c = '[' then true else if c = ']' then false else bracketed
      let (host, port) := splitHost bracketed rest
      (c :: host, port)

/-- The port of a service that names none. -/
def defaultPort : Nat := 6379

def port? : List Char → Option Nat
  | ':' :: digits =>
    if !digits.all Char.isDigit then none
    else
      let value := digits.foldl (fun value c ↦ 10 * value + (c.toNat - 48)) 0
      if digits.isEmpty then some defaultPort else if value < 65536 then some value else none
  | _ => some defaultPort

/-- The host and the port. The user and the password must be texts. -/
def authority? (text : List Char) : Option (String × Nat) := do
  let (user, place) := (splitLast '@' text).getD ([], text)
  let (name, password) := splitBefore (· == ':') user
  let _ ← decoded? name
  let _ ← decoded? (password.drop 1)
  let (host, port) := splitHost false place
  guard (isHost host)
  guard (!(host.isEmpty && (port.head? == some ':' || (splitLast '@' text).isSome)))
  return (String.ofList host, ← port? port)

/-! ## Queries -/

/-- The value of a name in a query, the last one if it is given more than once. -/
def queryValue? (name : String) (query : List Char) : Option String :=
  let pairs := (splitOn '&' query).map fun part ↦
    let (key, value) := splitBefore (· == '=') (part.map fun c ↦ if c = '+' then ' ' else c)
    ((decoded? key).getD "\uFFFD", (decoded? (value.drop 1)).getD "\uFFFD")
  (pairs.reverse.find? (·.1 == name)).map (·.2)

def database? (text : String) : Option Int := (Decimal.readSigned text).toOption

/-- The protocol is left open or one of the two there are. -/
def isProtocol (query : List Char) : Bool :=
  match queryValue? "protocol" query with
  | none => true
  | some version => ["2", "resp2", "3", "resp3"].contains version

/-! ## Addresses -/

/-- What follows the scheme: the authority if there is one, the path and the query. -/
def sections (text : List Char) : Option (List Char) × List Char × List Char :=
  let text := text.takeWhile (· != '#')
  let (authority, rest) := match text with
    | '/' :: '/' :: rest =>
      let (authority, rest) := splitBefore (fun c ↦ c == '/' || c == '?') rest
      (some authority, rest)
    | _ => (none, text)
  let (path, query) := splitBefore (· == '?') rest
  (authority, path, query.drop 1)

def read? (text : String) : Option Address := do
  let (scheme, rest) ← scheme? (clean text)
  let (authority, path, query) := sections rest
  guard (isProtocol query)
  if scheme = "redis" then
    let (host, port) ← authority? (← authority)
    guard (host ≠ "")
    match plainSteps path with
    | [] => return network host port 0
    | [step] => return network host port (← database? (String.ofList step))
    | _ => none
  else if scheme = "unix" ∨ scheme = "redis+unix" then
    let (host, _) ← match authority with
      | some authority => authority? authority
      | none => some ("", 0)
    guard (host = "" ∨ host = "localhost")
    guard (path.head? = some '/')
    let database ← match queryValue? "db" query with
      | some text => database? text
      | none => some 0
    return socket ((decoded? path).getD "") database
  else none

end Address

end LogShipping.Stream
