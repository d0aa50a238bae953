import ByteHive.ForStd.TextLines
import ByteHive.Native.HashCache

/-!
# Query strings (`filebrowser/src/http_util.rs`, `core/src/http.rs`)

`query_param` and `percent_decode` read the query of a request to the file browser, `urlencoded`
writes the path into the redirect to the login page. The decoder goes character by character and
takes each escape for a character of its own.
-/

namespace ByteHive

open TextLines

/-! ## Decoding -/

/-- `u8::from_str_radix` of two characters in base 16; the first may be a sign. -/
def hexByte (h1 h2 : Char) : Option Nat :=
  if h1 = '+' then toDigit16 h2
  else (toDigit16 h1).bind fun hi => (toDigit16 h2).map fun lo => hi * 16 + lo

/-- What an escape pushes: `b as char`, or nothing. -/
def pushEscape (h1 h2 : Char) : Text := ((hexByte h1 h2).map Char.ofNat).toList

/-- `percent_decode` -/
def percentDecode : Text → Text
  | [] => []
  | c :: rest =>
    if c = '%' then
      match rest with
      | h1 :: h2 :: rest => pushEscape h1 h2 ++ percentDecode rest
      -- a digit that is missing is zero
      | [h1] => pushEscape h1 '0'
      | [] => pushEscape '0' '0'
    else if c = '+' then ' ' :: percentDecode rest
    else c :: percentDecode rest

/-- `query_param` -/
def queryParam (query key : Text) : Option Text :=
  (query.splitOn '&').findSome? fun p =>
    -- `splitn(2, '=')`
    let k := p.takeWhile (· != '=')
    if k = key then some (percentDecode (p.dropWhile (· != '=')).tail) else none

/-! ## Encoding -/

/-- `{:02X}` -/
def hexUpper (n : Nat) : Text := ((Nat.toDigits 16 n).map Char.toUpper).leftpad 2 '0'

def isUnreserved (c : Char) : Bool :=
  c.isUpper || c.isLower || c.isDigit || c = '-' || c = '_' || c = '.' || c = '~'

/-- `urlencoded` -/
def urlencoded (s : Text) : Text :=
  s.flatMap fun c => if isUnreserved c || c = '/' then [c] else '%' :: hexUpper c.toNat

end ByteHive
