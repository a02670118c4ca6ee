import Gap.Lib.Machine
import Gap.Tunnel.Prefixes
import Mathlib.Logic.Function.Basic

namespace Gap.Tunnel

/-!
# The tunnel server

The event loop of `tunnel-server.c`, one system call at a time: a step is what the program does
from one call that waits for the outside (`epoll_wait`, `accept`, `read`) to the next, and its
input is what that call returns.  Accepted connections are numbered, so that a connection is
told apart from a later one on the same descriptor.

* `Config` — what is fixed before the event loop.
* `Server` — the routing table, the descriptors of the process, the place in the program.
* `Server.step`, `server` — the steps and the machine.

The results of `write` are not looked at.  `close (prefix_file)` is given a pointer and not a
descriptor, so the assignments file stays open.
-/

/-! ### Descriptors -/

/-- What a descriptor refers to. -/
inductive File
  | stdio
  | tun
  | listener
  | epoll
  | conn (c : ℕ)
  | assignments
  deriving DecidableEq

/-- The open descriptors of the process. -/
abbrev FdTable := ℕ → Option File

/-- The files registered with epoll. -/
def registered : Option File → Bool
  | some .tun => true
  | some .listener => true
  | some (.conn _) => true
  | _ => false

/-- What is set up before the event loop starts. -/
structure Config where
  tunFile : ℕ
  sfd : ℕ
  efd : ℕ
  prefixSlash52 : In6Addr
  prefixSlash64 : In6Addr
  inetPton : List UInt8 → Option In6Addr
  tunFile_ne_sfd : tunFile ≠ sfd
  tunFile_ne_efd : tunFile ≠ efd
  sfd_ne_efd : sfd ≠ efd

/-- The descriptors open when the event loop starts. -/
def Config.fds (cfg : Config) : FdTable := fun fd =>
  if fd = cfg.tunFile then some .tun
  else if fd = cfg.sfd then some .listener
  else if fd = cfg.efd then some .epoll
  else if fd < 3 then some .stdio
  else none

/-! ### Inputs -/

/-- An element of `events`. -/
structure EpollEvent where
  fd : ℕ
  epollerr : Bool
  epollhup : Bool
  epollin : Bool
  deriving DecidableEq

/-- The test of the error branch. -/
def EpollEvent.isError (ev : EpollEvent) : Bool := ev.epollerr || ev.epollhup || !ev.epollin

/-- What `accept` returns: a descriptor, and whether it could be made non-blocking and added to
    epoll; or -1. -/
inductive AcceptResult
  | connected (fd : ℕ) (setUp : Bool)
  | again
  | error

/-- What `read` returns. -/
inductive ReadResult
  | data (bytes : List UInt8)
  | again
  | error
  | eof

/-- `done` is set. -/
def ReadResult.isEnd : ReadResult → Bool
  | .error => true
  | .eof => true
  | _ => false

/-- What a reload finds: the descriptor `fopen` opens, the contents of the file, and what is in
    `local` and `block` at the start of each pass. -/
structure Assignments where
  fd : ℕ
  contents : List UInt8
  ind : ℕ → Indeterminate

/-- What a read finds: the contents `buf` had before it, and the assignments file if it can be
    opened. -/
structure ReadEnv where
  stale : Buf 4096
  assignments : Option Assignments

/-- What the call the server waits in returns. -/
inductive ServerInput
  | epollWait (events : List EpollEvent)
  | accept (r : AcceptResult)
  | read (r : ReadResult) (env : ReadEnv)

/-! ### State and trace -/

/-- The call the server waits in, with the events left of the batch. -/
inductive Pc
  | epollWait
  | accepting (rest : List EpollEvent)
  | reading (fd : ℕ) (rest : List EpollEvent)
  | exited
  /-- After a store outside `prefixes[512]` or `line[512]`. -/
  | undefined
  deriving DecidableEq

/-- The descriptor being read. -/
def Pc.readingFd : Pc → Option ℕ
  | .reading fd _ => some fd
  | _ => none

/-- The state of the event loop. -/
structure Server where
  prefixes : Prefixes
  fds : FdTable
  /-- The number of the next connection accepted. -/
  nextConn : ℕ
  pc : Pc

/-- The state in which the event loop starts. -/
def Server.init (cfg : Config) : Server := ⟨fun _ => SocketPrefix.zero, cfg.fds, 0, .epollWait⟩

/-- What the server does, each time with the files its descriptors refer to. -/
inductive ServerObs
  /-- An event taken by the error branch. -/
  | ignored (ev : EpollEvent) (file : Option File)
  | accepted (fd c : ℕ)
  /-- `read` returned data. -/
  | received (fd : ℕ) (file : Option File) (bytes : List UInt8)
  | learned (fd : ℕ) (file : Option File) (addr : In6Addr)
  /-- `read` returned 0 or an error, and the descriptor is closed. -/
  | ended (fd : ℕ) (file : Option File)
  /-- `write (fd, buf, count)`, for data read from `src`. -/
  | wrote (src : Option File) (fd : ℕ) (file : Option File) (bytes : List UInt8)
  deriving DecidableEq

/-! ### The steps -/

/-- Go on with the events left: those of the error branch are skipped. -/
def nextPc (cfg : Config) (rest : List EpollEvent) : Pc :=
  match rest.dropWhile EpollEvent.isError with
  | [] => .epollWait
  | ev :: rest => if ev.fd = cfg.sfd then .accepting rest else .reading ev.fd rest

/-- The events skipped. -/
def skipped (fds : FdTable) (rest : List EpollEvent) : List ServerObs :=
  (rest.takeWhile EpollEvent.isError).map fun ev => .ignored ev (fds ev.fd)

/-- Leave the handler of an event. -/
def Server.next (cfg : Config) (s : Server) (rest : List EpollEvent) : Server × List ServerObs :=
  ({ s with pc := nextPc cfg rest }, skipped s.fds rest)

/-- The learning branch: the address a connection without one presents. -/
def learns (prefixes : Prefixes) (fd : ℕ) (buf : Buf 4096) : Option In6Addr :=
  if h : fd < 512 then
    if (prefixes ⟨fd, h⟩).plenLl = 0 then linkLocalSource buf else none
  else none

/-- `memcpy (&prefix->addr_ll, ..); prefix->plen_ll = 128`. -/
def learn (prefixes : Prefixes) (fd : ℕ) (addr : In6Addr) : Prefixes := fun j =>
  if j.val = fd then { prefixes j with addrLl := addr, plenLl := 128 } else prefixes j

/-- Data from a TCP connection: learn its address, dump the data to the TUN device. -/
def Server.fromTcp (cfg : Config) (s : Server) (fd : ℕ) (bytes : List UInt8) (stale : Buf 4096) :
    Server × List ServerObs :=
  let buf := stale.copy 0 bytes
  let received := .received fd (s.fds fd) bytes
  let dumped := .wrote (s.fds fd) cfg.tunFile (s.fds cfg.tunFile) (buf.front bytes.length)
  -- whether anything is learned or not, the data goes to the TUN device as it was read
  match learns s.prefixes fd buf with
  | some addr =>
    ({ s with prefixes := learn s.prefixes fd addr }, [received, .learned fd (s.fds fd) addr, dumped])
  | none => (s, [received, dumped])

/-- The destination is in the /52. -/
def Config.inSlash52 (cfg : Config) (dst : In6Addr) : Bool :=
  dst.agree cfg.prefixSlash52 0 6 && (dst 6 &&& 0xf0) == (cfg.prefixSlash52 6 &&& 0xf0)

/-- The destination is in the /64 or link-local. -/
def Config.inSlash64 (cfg : Config) (dst : In6Addr) : Bool :=
  dst.agree cfg.prefixSlash64 0 8 || dst.isLinkLocal

/-- `write (j, buf, count)` for the entry found, if any. -/
def Server.forward (cfg : Config) (s : Server) (bytes : List UInt8) :
    Option (Fin 512) → List ServerObs
  | none => []
  | some j => [.wrote (s.fds cfg.tunFile) j (s.fds j) bytes]

/-- `parse_prefixes (prefixes)` on a file that could be opened. -/
def Server.reload (cfg : Config) (s : Server) (a : Assignments) : Server :=
  let opened := { s with fds := Function.update s.fds a.fd (some .assignments) }
  match parsePrefixes cfg.inetPton a.ind a.contents s.prefixes with
  | some prefixes => { opened with prefixes }
  -- a digit was stored in front of `line[]`
  | none => { opened with pc := .undefined }

/-- Data from the TUN device: find the connection to send it to. -/
def Server.fromTun (cfg : Config) (s : Server) (bytes : List UInt8) (env : ReadEnv) :
    Option (Server × List ServerObs) :=
  let buf := env.stale.copy 0 bytes
  let out := buf.front bytes.length
  let received := .received cfg.tunFile (s.fds cfg.tunFile) bytes
  if version buf ≠ 6 then some (s, [received])
  else if cfg.inSlash52 (daddr buf) then
    match findPd s.prefixes (daddr buf) with
    | some j => some (s, received :: s.forward cfg out (some j))
    | none =>
      -- "Could not find match originally. Reading assignments"
      match env.assignments with
      | none => some ({ s with pc := .exited }, [received])
      | some a =>
        -- the kernel does not hand out a descriptor that is still open
        if (s.fds a.fd).isSome then none
        else
          let s := s.reload cfg a
          if s.pc = .undefined then some (s, [received])
          else some (s, received :: s.forward cfg out (findPd s.prefixes (daddr buf)))
  else if cfg.inSlash64 (daddr buf) then
    some (s, received :: s.forward cfg out (findLl s.prefixes (daddr buf)))
  else some (s, [received])

/-- The close path: the stores after `close` are in the table only for descriptors below 512. -/
def Server.close (cfg : Config) (s : Server) (fd : ℕ) (rest : List EpollEvent) :
    Server × List ServerObs :=
  let closed := { s with fds := Function.update s.fds fd none }
  if h : fd < 512 then
    let r := Server.next cfg { closed with
      prefixes := Function.update s.prefixes ⟨fd, h⟩ (s.prefixes ⟨fd, h⟩).clear } rest
    (r.1, .ended fd (s.fds fd) :: r.2)
  else ({ closed with pc := .undefined }, [.ended fd (s.fds fd)])

/-- A batch the kernel can return: at most `MAXEVENTS` events, of distinct open descriptors that
    are registered. -/
def Server.Batch (s : Server) (events : List EpollEvent) : Prop :=
  events.length ≤ 64 ∧ (events.map EpollEvent.fd).Nodup ∧ ∀ ev ∈ events, registered (s.fds ev.fd)

instance (s : Server) (events : List EpollEvent) : Decidable (s.Batch events) :=
  inferInstanceAs (Decidable (_ ∧ _ ∧ _))

/-- One step of the event loop. -/
def Server.step (cfg : Config) (s : Server) : ServerInput → Option (Server × List ServerObs)
  | .epollWait events =>
    match s.pc with
    | .epollWait => if s.Batch events then some (s.next cfg events) else none
    | _ => none
  | .accept r =>
    match s.pc with
    | .accepting rest =>
      match r with
      | .connected fd setUp =>
        if (s.fds fd).isSome then none
        else
          -- the entry of the descriptor is not touched
          some ({ s with
            fds := Function.update s.fds fd (some (.conn s.nextConn))
            nextConn := s.nextConn + 1
            pc := if setUp then .accepting rest else .exited }, [.accepted fd s.nextConn])
      -- both break out of the accept loop
      | .again => some (s.next cfg rest)
      | .error => some (s.next cfg rest)
    | _ => none
  | .read r env =>
    match s.pc with
    | .reading fd rest =>
      match r with
      | .data bytes =>
        if 1 ≤ bytes.length ∧ bytes.length ≤ 4096 then
          if fd = cfg.tunFile then s.fromTun cfg bytes env
          else some (s.fromTcp cfg fd bytes env.stale)
        else none
      | .again => some (s.next cfg rest)
      | .error => some (s.close cfg fd rest)
      | .eof => some (s.close cfg fd rest)
    | _ => none

/-- The server as a machine. -/
def server (cfg : Config) : Machine Server ServerInput ServerObs := ⟨Server.init cfg, Server.step cfg⟩

/-! ### A small configuration -/

/-- An address from its leading bytes. -/
def addrOf (bytes : List UInt8) : In6Addr := fun i => bytes.getD i 0

/-- The address `fe80::n`. -/
def linkLocal (n : UInt8) : In6Addr :=
  addrOf [0xfe, 0x80, 0, 0, 0, 0, 0, 0, 0, 0, 0, 0, 0, 0, 0, n]

/-- A server for 2001:db8::/52 and 2001:db8:1::/64 that opened TUN, socket and epoll in this
    order; its assignments hold no address. -/
def Config.sample : Config where
  tunFile := 3
  sfd := 4
  efd := 5
  prefixSlash52 := addrOf [0x20, 0x01, 0x0d, 0xb8]
  prefixSlash64 := addrOf [0x20, 0x01, 0x0d, 0xb8, 0, 1]
  inetPton _ := none
  tunFile_ne_sfd := by decide
  tunFile_ne_efd := by decide
  sfd_ne_efd := by decide

/-- An IPv6 packet without payload. -/
def packetOf (src dst : In6Addr) : List UInt8 :=
  [0x60, 0, 0, 0, 0, 0, 59, 64] ++ List.ofFn src ++ List.ofFn dst

/-- The packet a client starts with: from `fe80::n`, to a multicast address. -/
def helloOf (n : UInt8) : List UInt8 := packetOf (linkLocal n) (addrOf [0xff, 2])

/-- An event for data to read. -/
def readable (fd : ℕ) : EpollEvent := ⟨fd, false, false, true⟩

/-- A client connects. -/
def connects (fd : ℕ) : List ServerInput :=
  [.epollWait [readable 4], .accept (.connected fd true), .accept .again]

/-- Data can be read from a descriptor, in these pieces, into a buffer of zeros. -/
def delivers (fd : ℕ) (pieces : List (List UInt8)) : List ServerInput :=
  .epollWait [readable fd] ::
    (pieces.map fun bytes => .read (.data bytes) ⟨fun _ => 0, none⟩) ++
      [.read .again ⟨fun _ => 0, none⟩]

/-- The last bytes of a connection have been read. -/
def ends (fd : ℕ) : List ServerInput :=
  [.epollWait [readable fd], .read .eof ⟨fun _ => 0, none⟩]

end Gap.Tunnel
