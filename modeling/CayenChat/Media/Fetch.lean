import CayenChat.Media.Policy

/-! # Downloading preview candidates

Redirects are followed by hand so that each target is checked, and the
resolver drops every address that is not public before connecting. What the
servers, the resolver, the clock and the user do is an input; the library
follows no redirects itself and connects only to addresses it was given.
-/

namespace CayenChat.Media

/-- Resource limits for one preview. -/
structure Limits where
  /-- Compressed response body. -/
  maxResponseBytes : ℕ := 8 * 1024 * 1024
  maxRedirects : ℕ := 3
  deriving DecidableEq, Repr

/-- Why a call of the library failed: an error of our own resolver, or another. -/
inductive CallError
  | other
  | failed
  deriving DecidableEq

/-- Why reading the body failed: its limit was reached, or another reason. -/
inductive ReadError
  | limit
  | failed
  deriving DecidableEq

/-- One turn of reading the body. -/
structure Turn where
  cancelled : Bool := false
  /-- The deadline has passed. -/
  late : Bool := false
  read : Except ReadError (List UInt8)

/-- What a server answers. -/
structure Response where
  status : ℕ
  /-- The header, when it is text. -/
  location : Option String := none
  mimeType : Option String := none
  contentLength : Option ℕ := none
  /-- The turns of reading the body; behind them it has ended. -/
  body : List Turn := []

/-- What one request meets. -/
structure Hop where
  /-- The result is not wanted any more. -/
  cancelled : Bool := false
  /-- No time is left for the request. -/
  expired : Bool := false
  /-- What the system resolver answers, unless it fails. -/
  resolved : Option (List IpAddr)
  response : Except CallError Response

/-- A request: its URL and the addresses it may connect to. -/
structure Request where
  url : Url
  addresses : List IpAddr
  deriving DecidableEq

inductive Step
  | redirect (next : Url)
  | body (bytes : List UInt8)

/-- What one hop did: its request, the answer it confirmed, and how it ended. -/
structure Got where
  request : Option Request := none
  confirmed : Option Response := none
  step : Except LoadError Step

def Response.declared (r : Response) : String := toAsciiLowercase (r.mimeType.getD "")

def Response.isImage (r : Response) : Bool :=
  startsWith "image/" r.declared && !decide ("svg".toList <:+: r.declared.toList)

/-- Reads the body up to the limit. -/
def readBody (max : ℕ) : List Turn → List UInt8 → Except LoadError (List UInt8)
  | [], bytes => .ok bytes
  | turn :: turns, bytes =>
    if turn.cancelled then .error .cancelled
    else if turn.late then .error .network
    else match turn.read with
      | .error .limit => .error .tooLarge
      | .error .failed => .error .network
      | .ok read =>
        if read.length = 0 then .ok bytes
        else if bytes.length + read.length > max then .error .tooLarge
        else readBody max turns (bytes ++ read)

/-- The addresses of a name previews may connect to; `none` when the resolver fails. -/
def resolve (rules : Rules) (hop : Hop) : Option (List IpAddr) :=
  hop.resolved.map fun resolved => resolved.filter (permits rules)

variable (join : Url → String → Option Url)

/-- What a response leads to. -/
def take (limits : Limits) (url : Url) (response : Response) :
    Option Response × Except LoadError Step :=
  if response.status ∈ [301, 302, 303, 307, 308] then
    match response.location with
    | none => (none, .error (.status response.status))
    | some location =>
      match join url location with
      | none => (none, .error .blocked)
      | some next => (none, .ok (.redirect next))
  else if response.status ≠ 200 then (none, .error (.status response.status))
  -- The extension was only a hint; a page or any type other than an image ends here.
  else if !response.isImage then (none, .error .notImage)
  else if response.contentLength.any fun length => limits.maxResponseBytes < length then
    (none, .error .tooLarge)
  else (some response, (readBody limits.maxResponseBytes response.body []).map .body)

/-- One hop. -/
def get (rules : Rules) (limits : Limits) (url : Url) (hop : Hop) : Got :=
  if hop.expired then { step := .error .network }
  else match resolve rules hop with
    | none => { request := some ⟨url, []⟩, step := .error .network }
    | some [] => { request := some ⟨url, []⟩, step := .error .blocked }
    | some addresses =>
      match hop.response with
      | .error .other => { request := some ⟨url, addresses⟩, step := .error .blocked }
      | .error .failed => { request := some ⟨url, addresses⟩, step := .error .network }
      | .ok response =>
        let (confirmed, step) := take join limits url response
        { request := some ⟨url, addresses⟩, confirmed, step }

/-- What a whole load did: its requests, the answers it confirmed, and its result. -/
structure Fetched where
  requests : List Request := []
  confirmed : List Response := []
  result : Except LoadError (List UInt8)

/-- The hops that are left, from the one with a given number on. -/
def fetchFrom (rules : Rules) (limits : Limits) (hops : ℕ → Hop) :
    ℕ → ℕ → Url → Option Url → Fetched
  | 0, _, _, _ => { result := .error .tooManyRedirects }
  | left + 1, n, url, previous =>
    if (hops n).cancelled then { result := .error .cancelled }
    else match checkRequest url previous rules with
      | .error e => { result := .error e }
      | .ok () =>
        let got := get join rules limits url (hops n)
        match got.step with
        | .error e =>
          { requests := got.request.toList, confirmed := got.confirmed.toList, result := .error e }
        | .ok (.body bytes) =>
          { requests := got.request.toList, confirmed := got.confirmed.toList, result := .ok bytes }
        | .ok (.redirect next) =>
          let rest := fetchFrom rules limits hops left (n + 1) next (some url)
          { rest with
            requests := got.request.toList ++ rest.requests
            confirmed := got.confirmed.toList ++ rest.confirmed }

def fetchConfirmed (rules : Rules) (limits : Limits) (link : Url) (hops : ℕ → Hop) : Fetched :=
  fetchFrom join rules limits hops (limits.maxRedirects + 1) 0 link none

end CayenChat.Media
