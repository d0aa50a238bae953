import ByteHive.ForStd.TextLines

/-!
# Cookies (`core/src/http.rs`)

`parse_cookie` looks for a cookie in a `Cookie` header; the session token of a request is the
cookie `cc_session`.
-/

namespace ByteHive

open TextLines

/-- The value that one part of the header has for the name. -/
def cookieValue (name part : Text) : Option Text :=
  let part := trim part
  if name <+: part then
    -- `strip_prefix`, `trim_start_matches('=')` and `trim`
    let val := trim ((part.drop name.length).dropWhile (· == '='))
    if val = [] then none else some val
  else none

/-- `parse_cookie` -/
def parseCookie (header name : Text) : Option Text :=
  (header.splitOn ';').findSome? (cookieValue name)

end ByteHive
