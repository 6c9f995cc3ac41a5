import NetCentric.Relay
import NetCentric.Tunnel

/-!
# The handlers

What the proxies do with one connection, from the `read` of the request on. The code
stands three times in the source, as the loop body of the sequential proxy (`serve`), in
the child of the forking proxy (`child`) and in `thread_handle` (`threadHandle`), and
`handle` is the three of them. They differ in how they give up, in the log file and how
they lock it, in the descriptors closed at the end, and in that the sequential proxy has
no CONNECT.

A handler that reaches the end of its body has the result `.ok ()`. The sequential
proxy and the child are then back at `accept`, and a thread returns.
-/

namespace NetCentric

/-- Go on if `ok`, and give up otherwise. -/
def Mode.require (m : Mode) (ok : Bool) (fds : List Fd) : Handler Unit :=
  if ok then pure () else m.giveUp fds

@[simp] theorem Mode.require_true (m : Mode) (fds : List Fd) : m.require true fds = pure () :=
  rfl

@[simp] theorem Mode.require_false (m : Mode) (fds : List Fd) :
    m.require false fds = m.giveUp fds :=
  rfl

/-! ## The log -/

/-- `%d`. -/
def decimal (x : ℤ) : List Byte :=
  bytes (toString x)

/-- `%d.%d.%d.%d` of the four bytes of an address. -/
def dotted (host : BitVec 32) : List Byte :=
  let a := (host >>> 24).toNat
  let b := ((host >>> 16) &&& 0xff).toNat
  let c := ((host >>> 8) &&& 0xff).toNat
  let d := (host &&& 0xff).toNat
  decimal a ++ bytes "." ++ decimal b ++ bytes "." ++ decimal c ++ bytes "." ++ decimal d

/-- `format_log_entry`. -/
def formatLogEntry (time_str : List Byte) (host : BitVec 32) (uri : List Byte) (size : ℤ) :
    List Byte :=
  time_str ++ bytes ": " ++ dotted host ++ bytes " " ++ uri ++ bytes " " ++ decimal size ++
    bytes "\n"

/-- `format_connect_entry`. -/
def formatConnectEntry (time_str : List Byte) (host : BitVec 32) (uri : List Byte)
    (sent recv : ℤ) : List Byte :=
  time_str ++ bytes " CONNECT from " ++ dotted host ++ bytes " to " ++ uri ++
    bytes ", Data Transferred " ++ decimal sent ++ bytes "/" ++ decimal recv ++ bytes "\n"

/-- Write the entry to the log, if the file opens. The file that does not open leaves the
server's descriptor open. -/
def writeLog (m : Mode) (log : Bool) (logstring : List Byte) : Handler Unit := do
  match m with
  | .sequential =>
    Prog.call (.fopen log)
    m.require log [.client, .proxy]
    let logstring ← orUndefined (inArray 1024 logstring)
    Prog.callAll [.fprintf logstring, .fclose]
  | .thread =>
    Prog.call (.fopen log)
    m.require log [.client, .proxy]
    Prog.call .mutexLock
    let logstring ← orUndefined (inArray 1024 logstring)
    Prog.callAll [.fprintf logstring, .mutexUnlock, .fclose]
  | .process =>
    Prog.call (.openLog log)
    m.require log [.client, .proxy]
    Prog.call .lockFile
    let logstring ← orUndefined (inArray 1024 logstring)
    Prog.callAll [.seekEnd, .write .log logstring logstring.length, .unlockFile, .close .log]

/-! ## The two methods -/

/-- From the name lookup to the connection. -/
def connectServer (m : Mode) (sc : Script) (host service : List Byte) : Handler Unit := do
  Prog.call (.getaddrinfo host service sc.lookup)
  m.require sc.lookup [.client, .proxy]
  Prog.call (.socket sc.socket)
  m.require sc.socket [.client, .proxy]
  Prog.call (.connect sc.connect)
  m.require sc.connect [.client, .proxy, .server]
  Prog.call .freeaddrinfo

/-- From the response to the end of the body. -/
def finishGet (m : Mode) (sc : Script) (url : List Byte) : Handler Unit := do
  let total ← relay sc.memory sc.responses
  writeLog m sc.log (formatLogEntry sc.time sc.address url total)
  match m with
  | .thread => Prog.callAll [.close .server, .close .client]
  | _ => Prog.call (.close .client)

/-- The branch of GET, for the request in `buffer`. -/
def handleGet (m : Mode) (sc : Script) (l : Locals) (buffer : List Byte) : Handler Unit := do
  let (accepted, l) ← orUndefined (scanGetUrl l)
  m.require accepted [.client, .proxy]
  connectServer m sc l.host (bytes "http")
  let request ← orUndefined (rewrite l.resource l.version buffer)
  Prog.call (.write .server request request.length)
  m.require sc.send [.client, .proxy, .server]
  finishGet m sc l.url

/-- From the reply to the end of the body. The counters are passed as `int`. -/
def finishConnect (m : Mode) (sc : Script) (url : List Byte) : Handler Unit := do
  Prog.call (.write .client ESTABLISHED ESTABLISHED.length)
  let total ← pollLoop m (fun _ => 0) sc.polls
  writeLog m sc.log
    (formatConnectEntry sc.time sc.address url (toInt total.sent) (toInt total.recv))
  match m with
  | .thread => Prog.callAll [.close .server, .close .client]
  | _ => do
    Prog.callAll [.close .server, .close .client, .close .proxy]
    Prog.stop (.exit 0)

/-- The branch of CONNECT. -/
def handleConnect (m : Mode) (sc : Script) (l : Locals) : Handler Unit := do
  let (accepted, l) ← orUndefined (scanConnectUrl l)
  m.require accepted [.client, .proxy]
  connectServer m sc l.host (bytes "https")
  finishConnect m sc l.url

/-- One connection. -/
def handle (m : Mode) (sc : Script) : Handler Unit := do
  Prog.call (.read .client 9999 sc.request)
  m.require (0 < sc.request.count) [.client, .proxy]
  let buffer := cstr sc.request.stored
  let l ← orUndefined (scanRequest sc.memory.stale buffer)
  if strncasecmpEq l.method (bytes "GET") 3 then
    handleGet m sc l buffer
  else if m ≠ .sequential ∧ strncasecmpEq l.method (bytes "CONNECT") 7 then
    handleConnect m sc l
  else
    m.giveUp [.client, .proxy]

/-- The loop body of the sequential proxy. -/
def serve : Script → Handler Unit :=
  handle .sequential

/-- The child of the forking proxy, to the end of the loop body. -/
def child : Script → Handler Unit :=
  handle .process

/-- `thread_handle`, from its `read` on. -/
def threadHandle : Script → Handler Unit :=
  handle .thread

end NetCentric
