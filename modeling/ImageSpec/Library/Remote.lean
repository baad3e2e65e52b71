import ImageSpec.Catalog
import ImageSpec.Error
import ImageSpec.Json.Reader
import ImageSpec.Text.Numerals
import ImageSpec.Url

namespace ImageSpec

/-!
# Libraries on a server

A remote library asks a server for all definitions with a name and picks one of them.  The server is
a parameter: a function from the URL that is asked for to a reply.
-/

/-! ### Replies -/

/-- What comes back for a request. -/
inductive Reply where
  | failed
  | timedOut
  | answered (status : Nat) (body : ByteArray)

namespace Reply

/-- What the numbers of replies mean. -/
def reasons : List (Nat × String) := [
  (101, "Switching Protocols"),
  (200, "OK"), (201, "Created"), (202, "Accepted"), (203, "Non Authoritative Information"),
  (204, "No Content"), (205, "Reset Content"), (206, "Partial Content"), (207, "Multi-Status"),
  (208, "Already Reported"), (226, "IM Used"),
  (300, "Multiple Choices"), (301, "Moved Permanently"), (302, "Found"), (303, "See Other"),
  (304, "Not Modified"), (305, "Use Proxy"), (307, "Temporary Redirect"),
  (308, "Permanent Redirect"),
  (400, "Bad Request"), (401, "Unauthorized"), (402, "Payment Required"), (403, "Forbidden"),
  (404, "Not Found"), (405, "Method Not Allowed"), (406, "Not Acceptable"),
  (407, "Proxy Authentication Required"), (408, "Request Timeout"), (409, "Conflict"),
  (410, "Gone"), (411, "Length Required"), (412, "Precondition Failed"),
  (413, "Payload Too Large"), (414, "URI Too Long"), (415, "Unsupported Media Type"),
  (416, "Range Not Satisfiable"), (417, "Expectation Failed"), (418, "I'm a teapot"),
  (421, "Misdirected Request"), (422, "Unprocessable Entity"), (423, "Locked"),
  (424, "Failed Dependency"), (425, "Too Early"), (426, "Upgrade Required"),
  (428, "Precondition Required"), (429, "Too Many Requests"),
  (431, "Request Header Fields Too Large"), (451, "Unavailable For Legal Reasons"),
  (500, "Internal Server Error"), (501, "Not Implemented"), (502, "Bad Gateway"),
  (503, "Service Unavailable"), (504, "Gateway Timeout"), (505, "HTTP Version Not Supported"),
  (506, "Variant Also Negotiates"), (507, "Insufficient Storage"), (508, "Loop Detected"),
  (510, "Not Extended"), (511, "Network Authentication Required")]

/-- The number of a reply with its meaning. -/
def statusText (status : Nat) : String :=
  status.repr ++ " " ++ (reasons.lookup status).getD "<unknown status code>"

/-- Whether replies with a number have no body. -/
def hasNoBody (status : Nat) : Bool := status == 204 || status == 304

/-- The reply with a status line, which starts with a number of three digits.  Numbers below 200 only
    announce another reply, which does not come; 101 alone is final. -/
def ofStatusLine (line : String) (body : ByteArray) : Reply :=
  let digits := line.toList.takeWhile Char.isDigit
  let status := Text.decimal digits
  if digits.length != 3 || (status < 200 && status != 101) then failed
  else answered status (if hasNoBody status then .empty else body)

end Reply

/-! ### Servers -/

/-- A library on a server. -/
structure Remote where
  base : Url
  offline : Bool := false

namespace Remote

/-- The remote library at an address, which has to be one of the web. -/
def ofAddress (address : String) : Except ConfigFault Remote :=
  match Url.parse address with
  | .error fault => .error (.invalidRegistry address fault.message)
  | .ok base =>
    if base.scheme = "http" ∨ base.scheme = "https" then .ok { base }
    else .error (.unsupportedRegistry base.text)

/-- Where the definitions with a name are found. -/
def definitionsUrl (r : Remote) (name : String) : Url :=
  r.base.appendNames ["v1", "definitions", name]

/-- The first line of the request for a URL. -/
def requestLine (u : Url) : String := "GET " ++ u.target ++ " HTTP/1.1"

/-- The definitions in the body of a reply. -/
def definitions? (body : ByteArray) : Option (List Definition) := do
  (← (← Json.ofBytes? body).items?).mapM Definition.ofJson?

/-- What a reply to the request for a URL says about a reference. -/
def interpret (reference : Reference) (url : Url) : Reply → Except LookupError Definition
  | .timedOut => .error (.unavailable ("lookup of `" ++ reference.name ++ "` timed out"))
  | .failed => .error (.unavailable ("request to " ++ url.text
      ++ " failed: error sending request for url (" ++ url.text ++ ")"))
  | .answered status body =>
    if status = 404 then .error (.unknownName reference.name)
    else if status < 200 ∨ 300 ≤ status then
      .error (.unavailable (url.text ++ " answered " ++ Reply.statusText status))
    else match definitions? body with
      | none => .error (.malformed reference.name
          "unreadable response body: error decoding response body")
      | some ds => chooseAmong reference ds

/-- The library that asks a server with states in `σ`; while it is offline it asks nobody. -/
def library {σ : Type} (r : Remote) (ask : Url → σ → Reply × σ) : Library σ where
  lookup reference s :=
    if r.offline then
      (.error (.unavailable ("offline mode forbids remote lookup of `" ++ reference.name ++ "`")), s)
    else
      let url := r.definitionsUrl reference.name
      let (reply, s) := ask url s
      (interpret reference url reply, s)

end Remote

end ImageSpec
