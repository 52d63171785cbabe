import DevFramework.Foundations.Transition

/-! # A request over WinHTTP (`request_t`, asio/async_http/request.cpp)

WinHTTP calls `request_t::callback` on threads of its own. A call that does more than look up its
code is at work until its handler has returned, and several can be at work at once; each has a
program counter. What WinHTTP and the user's callbacks answer is in the action. The calls of the
user's callbacks are kept in `log`.
-/
namespace DevFramework.Http
open Transition
set_option autoImplicit false
set_option maxHeartbeats 250000

abbrev Text := List Char

/-- `code`, with what `info` points to: the codes of `handle_code` in its order, and the others. -/
inductive Status where
  | resolvingName
  | nameResolved
  | connectingToServer
  | connectedToServer
  | sendingRequest
  | requestSent
  | receivingResponse
  | responseReceived
  | closingConnection
  | connectionClosed
  | handleCreated
  | handleClosing
  | detectingProxy
  | redirect (url : Text)
  | intermediateResponse
  | secureFailure
  | headersAvailable
  | dataAvailable
  | readComplete
  | writeComplete
  | requestError (dwError : ℕ)
  | sendRequestComplete
  | unlisted (code : ℕ)
  deriving DecidableEq, Repr

/-- An exception that `catch(std::exception &e)` takes: `http_error_t` by its constructor, or one of
the user's. -/
inductive Thrown where
  | error (error : ℕ)
  | code (code : ℕ)
  | message (msg : Text)
  deriving DecidableEq, Repr

/-- A call of one of the user's callbacks; `error_` gets the text of the exception. -/
inductive UserCall where
  | headerComplete (size : ℕ)
  | read (len : ℕ)
  | redirect (url : Text) (len : ℕ)
  | error (e : Thrown)
  | responseComplete (suc : Bool)
  deriving DecidableEq, Repr

/-- Where a call of `callback` is: before a call of WinHTTP or of the user, or in the user's. -/
inductive Pc where
  | receiveResponse
  | queryStatusCode
  | readData
  | headerComplete
  | inHeaderComplete
  | read (length : ℕ)
  | inRead
  | readMore
  | responseComplete
  | inResponseComplete
  | redirect (url : Text) (length : ℕ)
  | inRedirect
  | error (e : Thrown)
  | inError
  | responseFailed
  | inResponseFailed
  deriving DecidableEq, Repr

/-- What the call that is next, or under way, answers. `ok` is success, and for `read_` the answer
true; a call of WinHTTP fails with what `GetLastError` says. -/
inductive Answer where
  | ok
  | statusCode (code : ℕ)
  | contentLength (size : ℕ)
  | userExit
  | fails (error : ℕ)
  | throws (msg : Text)
  | throwsOther
  deriving DecidableEq, Repr

/-- What a step of a call does. -/
inductive Outcome where
  | goto (pc : Pc)
  | call (c : UserCall) (pc : Pc)
  | reads (pc : Option Pc)
  | receives
  | done
  | leaves
  deriving DecidableEq, Repr

/-- `ERROR_WINHTTP_CLIENT_AUTH_CERT_NEEDED`. -/
def clientAuthCertNeeded : ℕ := 12044

/-- `HTTP_STATUS_OK`. -/
def statusOk : ℕ := 200

/-- `handle_code`: where the handler of a code starts, none for `handle_default`. A code that is not
in the table has no handler. -/
def handleCode (length : ℕ) : Status → Option Pc
  | .redirect url => some (.redirect url length)
  | .secureFailure => some (.error (.error clientAuthCertNeeded))
  | .headersAvailable => some .queryStatusCode
  | .readComplete => some (if 0 < length then .read length else .responseComplete)
  | .requestError dwError => some (.error (.error dwError))
  | .sendRequestComplete => some .receiveResponse
  | _ => none

namespace Pc

/-- The next step. What is thrown in a handler goes to the `catch` of `callback`, unless it is not a
`std::exception`; what is thrown in the `catch` leaves `callback`. -/
def step : Pc → Answer → Option Outcome
  | .receiveResponse, .ok => some .receives
  | .receiveResponse, .fails e => some (.goto (.error (.error e)))
  | .queryStatusCode, .statusCode code =>
    if code = statusOk then some (.goto .readData) else some (.goto (.error (.code code)))
  | .queryStatusCode, .fails e => some (.goto (.error (.error e)))
  | .readData, .ok => some (.reads (some .headerComplete))
  | .readData, .fails e => some (.goto (.error (.error e)))
  | .headerComplete, .contentLength size => some (.call (.headerComplete size) .inHeaderComplete)
  | .inHeaderComplete, .ok => some .done
  | .inHeaderComplete, .throws msg => some (.goto (.error (.message msg)))
  | .read length, .ok => some (.call (.read length) .inRead)
  | .inRead, .ok => some (.goto .readMore)
  | .inRead, .userExit => some (.goto (.error (.message "user exit".toList)))
  | .inRead, .throws msg => some (.goto (.error (.message msg)))
  | .readMore, .ok => some (.reads none)
  | .readMore, .fails e => some (.goto (.error (.error e)))
  | .responseComplete, .ok => some (.call (.responseComplete true) .inResponseComplete)
  | .inResponseComplete, .ok => some .done
  | .inResponseComplete, .throws msg => some (.goto (.error (.message msg)))
  | .redirect url length, .ok => some (.call (.redirect url length) .inRedirect)
  | .inRedirect, .ok => some .done
  | .inRedirect, .throws msg => some (.goto (.error (.message msg)))
  | .error e, .ok => some (.call (.error e) .inError)
  | .inError, .ok => some (.goto .responseFailed)
  | .inError, .throws _ => some .leaves
  | .responseFailed, .ok => some (.call (.responseComplete false) .inResponseFailed)
  | .inResponseFailed, .ok => some .done
  | .inResponseFailed, .throws _ => some .leaves
  | .inHeaderComplete, .throwsOther | .inRead, .throwsOther => some .leaves
  | .inResponseComplete, .throwsOther | .inRedirect, .throwsOther => some .leaves
  | .inError, .throwsOther | .inResponseFailed, .throwsOther => some .leaves
  | _, _ => none

end Pc

/-- The request, with what WinHTTP has still to report: that it was sent, that the headers are there,
and every read that was issued. -/
structure Request where
  sending : Bool
  receiving : Bool
  pending : ℕ
  running : List Pc
  log : List UserCall
  terminated : Bool
  deriving DecidableEq, Repr

namespace Request

/-- After `send_request`. -/
def sent : Request :=
  { sending := true, receiving := false, pending := 0, running := [], log := [],
    terminated := false }

/-- What WinHTTP can report; errors, redirects and the codes without a handler at any time. -/
def deliver (s : Request) : Status → Option Request
  | .sendRequestComplete => if s.sending then some { s with sending := false } else none
  | .headersAvailable => if s.receiving then some { s with receiving := false } else none
  | .readComplete => if 0 < s.pending then some { s with pending := s.pending - 1 } else none
  | _ => some s

/-- The end of a step of the `k`th call at work. An exception that leaves `callback` ends the
process. -/
def after (s : Request) (k : ℕ) : Outcome → Request
  | .goto pc => { s with running := s.running.set k pc }
  | .call c pc => { s with running := s.running.set k pc, log := s.log ++ [c] }
  | .reads (some pc) => { s with running := s.running.set k pc, pending := s.pending + 1 }
  | .reads none => { s with running := s.running.eraseIdx k, pending := s.pending + 1 }
  | .receives => { s with running := s.running.eraseIdx k, receiving := true }
  | .done => { s with running := s.running.eraseIdx k }
  | .leaves => { s with terminated := true }

inductive Action where
  | callback (code : Status) (length : ℕ)
  | work (k : ℕ) (answer : Answer)
  deriving DecidableEq, Repr

def step (s : Request) : Action → Option Request
  | .callback code length =>
    if s.terminated then none
    else (s.deliver code).map fun s =>
      { s with running := s.running ++ (handleCode length code).toList }
  | .work k answer =>
    if s.terminated then none
    else (s.running[k]?.bind fun pc => pc.step answer).map (s.after k)

end Request

end DevFramework.Http
