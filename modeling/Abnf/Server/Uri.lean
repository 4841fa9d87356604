/-
References to documents: the URI references of RFC 3986.

`Uri.isReference` accepts a text iff it is a URI reference: an optional scheme, an optional
authority after two slashes, a path, an optional query and an optional fragment.  A reference
without a scheme has no colon in the first segment of its path.  A host in brackets is an IPv6
address.
-/
import Abnf.Text.Decimal

namespace Abnf.Uri

/-! ### Characters -/

def isHexDigit (c : Char) : Bool :=
  c.isDigit || ('a' ≤ c && c ≤ 'f') || ('A' ≤ c && c ≤ 'F')

def isUnreserved (c : Char) : Bool :=
  c.isAlphanum || c == '-' || c == '.' || c == '_' || c == '~'

def isSubDelim (c : Char) : Bool :=
  c == '!' || c == '$' || c == '&' || c == '\'' || c == '(' || c == ')' || c == '*' || c == '+' ||
    c == ',' || c == ';' || c == '='

/-- Whether a character may stand in the name of a host. -/
def isNameChar (c : Char) : Bool := isUnreserved c || isSubDelim c

/-- Whether a character may stand in front of the host. -/
def isUserChar (c : Char) : Bool := isNameChar c || c == ':'

/-- Whether a character may stand in a path. -/
def isPathChar (c : Char) : Bool := isUserChar c || c == '@' || c == '/'

/-- Whether a character may stand in a query or a fragment. -/
def isQueryChar (c : Char) : Bool := isPathChar c || c == '?'

/-- Whether a text consists of characters of a class and percent escapes. -/
def isEncoded (p : Char → Bool) : List Char → Bool
  | [] => true
  | '%' :: a :: b :: cs => isHexDigit a && isHexDigit b && isEncoded p cs
  | c :: cs => p c && isEncoded p cs

/-! ### Authorities -/

/-- The pieces of a text between the occurrences of a character. -/
def pieces (separator : Char) (cs : List Char) : List (List Char) := cs.splitOn separator

/-- Whether a text is a number from 0 to 255 without a superfluous zero. -/
def isOctet (cs : List Char) : Bool :=
  Text.isNatural cs && Text.decimalValue cs ≤ 255

/-- Whether a text is four octets with dots between them. -/
def isIpv4 (cs : List Char) : Bool :=
  let octets := pieces '.' cs
  octets.length == 4 && octets.all isOctet

/-- Whether a text is one to four hexadecimal digits. -/
def isGroup (cs : List Char) : Bool := !cs.isEmpty && cs.length ≤ 4 && cs.all isHexDigit

/-- How many groups of an IPv6 address are written, with colons between them; an IPv4 address may
take the place of the last two. -/
def groupCount? (mayEndInIpv4 : Bool) (cs : List Char) : Option Nat :=
  let groups := pieces ':' cs
  if cs.isEmpty then some 0
  else if groups.all isGroup then some groups.length
  else if mayEndInIpv4 && groups.dropLast.all isGroup && groups.getLast?.any isIpv4 then
    some (groups.length + 1)
  else none

/-- The parts of a text before and after its first two colons in a row. -/
def splitElision? : List Char → Option (List Char × List Char)
  | ':' :: ':' :: cs => some ([], cs)
  | c :: cs => (splitElision? cs).map fun parts => (c :: parts.1, parts.2)
  | [] => none

/-- Whether a text is an IPv6 address: eight groups, of which two colons may leave out some. -/
def isIpv6 (cs : List Char) : Bool :=
  match splitElision? cs with
  | none => groupCount? true cs == some 8
  | some (before, after) =>
    match groupCount? false before, groupCount? true after with
    | some m, some n => m + n ≤ 7
    | _, _ => false

/-- Whether a text is empty or a colon and digits. -/
def isPort : List Char → Bool
  | [] => true
  | ':' :: cs => cs.all Char.isDigit
  | _ => false

/-- Whether a text is a host with an optional port. -/
def isHostAndPort : List Char → Bool
  | '[' :: cs =>
    let address := cs.takeWhile (· != ']')
    match cs.drop address.length with
    | ']' :: port => isIpv6 address && isPort port
    | _ => false
  | cs => isEncoded isNameChar (cs.takeWhile (· != ':')) && isPort (cs.dropWhile (· != ':'))

/-- Whether a text is a host, with a user before it and a port after it if they are there. -/
def isAuthority (cs : List Char) : Bool :=
  match pieces '@' cs with
  | [host] => isHostAndPort host
  | [user, host] => isEncoded isUserChar user && isHostAndPort host
  | _ => false

/-! ### References -/

/-- Whether a text is a letter followed by letters, digits, `+`, `-` and `.`. -/
def isScheme : List Char → Bool
  | [] => false
  | c :: cs => c.isAlpha && cs.all fun d => d.isAlphanum || d == '+' || d == '-' || d == '.'

/-- Whether a text is an optional authority and a path. -/
def isHierarchy : List Char → Bool
  | '/' :: '/' :: cs =>
    isAuthority (cs.takeWhile (· != '/')) && isEncoded isPathChar (cs.dropWhile (· != '/'))
  | cs => isEncoded isPathChar cs

/-- Whether a text is an optional scheme, an optional authority and a path. -/
def isSchemeAndHierarchy (cs : List Char) : Bool :=
  let first := cs.takeWhile (· != '/')
  if ':' ∈ first then
    isScheme (first.takeWhile (· != ':')) && isHierarchy ((cs.dropWhile (· != ':')).drop 1)
  else
    isHierarchy cs

/-- Whether a text is a URI reference. -/
def isReference (uri : String) : Bool :=
  let cs := uri.toList
  let beforeFragment := cs.takeWhile (· != '#')
  let fragment := (cs.dropWhile (· != '#')).drop 1
  let beforeQuery := beforeFragment.takeWhile (· != '?')
  let query := (beforeFragment.dropWhile (· != '?')).drop 1
  isSchemeAndHierarchy beforeQuery && isEncoded isQueryChar query && isEncoded isQueryChar fragment

end Abnf.Uri
