import JanetSdbus.Schemes.Descriptors
import JanetSdbus.Schemes.Replace
import JanetSdbus.Schemes.Run
import Mathlib.Data.Int.Notation

/-! Messages and the descriptors in them.

    An `sdbus/message` is an `sd_bus_message *`, one reference; the others are those of further handles
    and of sd-bus, and the last one frees the message and closes the descriptors in it. `append` and
    `read` of type `h` duplicate, so that a message and the streams of a program never share a number.
    No message is used after it was freed, and no number closed that somebody else owns by now
    (`run_owned`); what is read from a message is what was put into it (`run_passes`). sd-bus appends to
    a message until it is sealed, which sending does as well, and reads from it only then.

    `message_handler` makes the handle before `message_copy`, which may raise. Then there is a handle
    that nobody has written to, and the collector frees what happens to stand in it. -/

namespace JanetSdbus.Message.Descriptors
open Schemes.Descriptors Schemes.Replace Schemes.Run

inductive SockType where | stream | dgram | other
  deriving DecidableEq

/-- An open file, as `fcntl` and `getsockopt` describe it. -/
structure File where
  number : ℕ
  /-- `F_GETFL & O_ACCMODE` -/
  mode : ℕ
  socket : Option SockType
  deriving DecidableEq

/-- The `JANET_STREAM_` flags. -/
structure Flags where
  readable : Bool
  writable : Bool
  socket : Bool
  udpserver : Bool
  deriving DecidableEq

inductive Kind where | file | stream
  deriving DecidableEq

/-- Who has an abstract: Janet code or nobody; the collector may have run its finalizer. -/
inductive Ref where | user | dropped | finalized
  deriving DecidableEq

/-- A `core/stream` or a `core/file`. `file` is a ghost: what it was made for. -/
structure Stream where
  kind : Kind
  fd : ℕ
  file : File
  flags : Flags
  closed : Bool
  ref : Ref

/-- `sd_bus_message`. `queued` counts the references of sd-bus: the queues, and the message that is
    being dispatched. `files` is a ghost: what the descriptors were put there for. -/
structure SdBusMessage where
  /-- its contents are final -/
  sealed : Bool
  refs : ℕ
  queued : ℕ
  fds : List ℕ
  files : List File
  freed : Bool

inductive Pointer where
  | null
  | message (m : ℕ)
  | garbage
  deriving DecidableEq

/-- The abstract `sdbus/message`. -/
structure Handle where
  msg : Pointer
  ref : Ref

structure World where
  table : ℕ → Option File
  messages : List SdBusMessage
  handles : List Handle
  streams : List Stream
  /-- something was freed or closed twice, or used after it was freed -/
  fault : Bool

inductive Result where
  | returned (w : World)
  | raised (w : World) (msg : String)

def Result.world : Result → World
  | returned w => w
  | raised w _ => w

/-! ### sd-bus -/

def EINVAL : ℤ := 22

def EBADF : ℤ := 9

def EPERM : ℤ := 1

/-- A message that was just made. -/
def newMessage (sealed : Bool) (refs queued : ℕ) (fds : List ℕ) (files : List File) : SdBusMessage where
  sealed := sealed
  refs := refs
  queued := queued
  fds := fds
  files := files
  freed := false

/-- sd-bus looks into the message. -/
def World.touch (w : World) (m : ℕ) : World :=
  { w with fault := w.fault || w.messages[m]?.elim true SdBusMessage.freed }

def World.isSealed (w : World) (m : ℕ) : Bool := w.messages[m]?.elim false SdBusMessage.sealed

/-- A holder lets go; with the last one the message is freed, and its descriptors are closed. -/
def release (w : World) (m : ℕ) (count : SdBusMessage → ℕ) (drop : SdBusMessage → SdBusMessage) : World :=
  match w.messages[m]? with
  | some g =>
    if g.freed = true ∨ count g = 0 then { w with fault := true }
    else if (drop g).refs = 0 ∧ (drop g).queued = 0 then
      { w with
        messages := w.messages.set m { drop g with freed := true }
        table := (closeAll w.table w.fault g.fds).1
        fault := (closeAll w.table w.fault g.fds).2 }
    else { w with messages := w.messages.set m (drop g) }
  | none => { w with fault := true }

def messageUnref (w : World) (m : ℕ) : World := release w m (·.refs) fun g => { g with refs := g.refs - 1 }

/-- sd-bus is done with the message. -/
def messageUnqueue (w : World) (m : ℕ) : World := release w m (·.queued) fun g => { g with queued := g.queued - 1 }

section errors
variable (strerror : ℤ → String)

def sdError (function : String) (rv : ℤ) : String := "failed to call " ++ function ++ ": " ++ strerror (-rv)

/-- A function that hands the pointer of a handle to sd-bus, which refuses NULL. -/
def onMessage (w : World) (p : Pointer) (function : String) (f : World → ℕ → Result) : Result :=
  match p with
  | .null => .raised w (sdError strerror function (-EINVAL))
  | .message m => f (w.touch m) m
  | .garbage => .raised { w with fault := true } ""

/-! ### message.c and unwrap.c -/

/-- `message-new-method-call` and the other three, given what sd-bus returned. -/
def cfunMessageNew (w : World) (function : String) (rv : ℤ) : Result :=
  if rv < 0 then .raised w (sdError strerror function rv)
  else .returned { w with
    messages := w.messages ++ [newMessage false 1 0 [] []]
    handles := w.handles ++ [⟨.message w.messages.length, .user⟩] }

def getfd (s : Stream) : Except String ℕ :=
  if s.closed then
    .error (match s.kind with
      | .file => "bad argument to D-Bus type 'h', file is closed"
      | .stream => "bad argument to D-Bus type 'h', stream is closed")
  else .ok s.fd

/-- `sd_bus_message_append(msg, "h", fd)`: sd-bus refuses, or duplicates the descriptor. -/
def appendFd (w : World) (m fd : ℕ) (file : File) (copy : Except ℤ ℕ) : Result :=
  if w.isSealed m then .raised w (sdError strerror "sd_bus_message_append" (-EPERM))
  else
    match w.messages[m]?, copy, w.table fd with
    | some g, .ok k, some f => .returned { w with
        table := openAll w.table [(k, f)]
        messages := w.messages.set m { g with fds := g.fds ++ [k], files := g.files ++ [file] } }
    | _, .error rv, _ => .raised w (sdError strerror "sd_bus_message_append" rv)
    | _, _, _ => .raised w (sdError strerror "sd_bus_message_append" (-EBADF))

/-- `message-append` with a stream for the type `h`. -/
def cfunMessageAppend (w : World) (p : Pointer) (s : Stream) (copy : Except ℤ ℕ) : Result :=
  match getfd s with
  | .error e => .raised w e
  | .ok fd => onMessage strerror w p "sd_bus_message_append" fun w m => appendFd strerror w m fd s.file copy

def streamFlags (f : File) : Flags where
  readable := f.mode = 0 || f.mode = 2
  writable := f.mode = 1 || f.mode = 2
  socket := f.socket = some .stream
  udpserver := f.socket = some .dgram

def fcntlError (command : String) (fd : ℕ) (errno : ℤ) : String :=
  "fcntl(" ++ command ++ ") failed for fd=" ++ toString fd ++ ": " ++ strerror errno

/-- `read_fd_type`, at the `i`-th descriptor of the message. The first two `fcntl` are F_DUPFD_CLOEXEC
    and F_GETFL. -/
def readFdType (w : World) (m i : ℕ) (copy : Except ℤ ℕ) : Result :=
  match w.messages[m]?.bind fun g => (g.fds.zip g.files)[i]? with
  | none => .raised w (sdError strerror "sd_bus_message_read_basic" (-EINVAL))
  | some (fd, file) =>
    match w.table fd, copy with
    | none, _ => .raised w (fcntlError strerror "F_DUPFD_CLOEXEC" fd EBADF)
    | _, .error rv => .raised w (fcntlError strerror "F_DUPFD_CLOEXEC" fd (-rv))
    | some f, .ok k =>
      let w := { w with table := openAll w.table [(k, f)] }
      match w.table k with
      | none => .raised w (fcntlError strerror "F_GETFL" k EBADF)
      | some f => .returned { w with streams := w.streams ++ [⟨.stream, k, file, streamFlags f, false, .user⟩] }

/-- `message-read`, as far as it reads a descriptor. `sd_bus_message_peek_type` comes first, and wants a
    message that is sealed. -/
def cfunMessageRead (w : World) (p : Pointer) (i : ℕ) (copy : Except ℤ ℕ) : Result :=
  onMessage strerror w p "sd_bus_message_peek_type" fun w m =>
    if w.isSealed m then readFdType strerror w m i copy
    else .raised w (sdError strerror "sd_bus_message_peek_type" (-EPERM))

/-- `sd_bus_message_send`: sd-bus seals the message, and may keep it until it can write. It can fail
    before the one and after it. -/
def sendMessage (w : World) (m : ℕ) (rv : ℤ) (queued sealed : Bool) : Result :=
  match w.messages[m]? with
  | some g =>
    if rv < 0 then
      .raised { w with messages := w.messages.set m { g with sealed := g.sealed || sealed } }
        (sdError strerror "sd_bus_message_send" rv)
    else
      .returned { w with
        messages := w.messages.set m { g with queued := g.queued + queued.toNat, sealed := true } }
  | none => .raised w (sdError strerror "sd_bus_message_send" (-EINVAL))

def cfunMessageSend (w : World) (p : Pointer) (rv : ℤ) (queued sealed : Bool) : Result :=
  onMessage strerror w p "sd_bus_message_send" fun w m => sendMessage strerror w m rv queued sealed

/-- `sd_bus_message_seal`, given what it returned. -/
def sealMessage (w : World) (m : ℕ) (rv : ℤ) : Result :=
  match w.messages[m]? with
  | some g =>
    if rv < 0 then .raised w (sdError strerror "sd_bus_message_seal" rv)
    else .returned { w with messages := w.messages.set m { g with sealed := true } }
  | none => .raised w (sdError strerror "sd_bus_message_seal" (-EINVAL))

def cfunMessageSeal (w : World) (p : Pointer) (rv : ℤ) : Result :=
  onMessage strerror w p "sd_bus_message_seal" fun w m => sealMessage strerror w m rv

end errors

/-- `sd_bus_message_unrefp(msg_ptr); *msg_ptr = NULL;` -/
def releaseHandle (w : World) (n : ℕ) (h : Handle) : World :=
  let w := match h.msg with
    | .null => w
    | .message m => messageUnref w m
    | .garbage => { w with fault := true }
  { w with handles := w.handles.set n { h with msg := .null } }

def cfunMessageUnref (w : World) (n : ℕ) (h : Handle) : World := releaseHandle w n h

/-- `gc_sdbus_message`. -/
def gcSdbusMessage (w : World) (n : ℕ) (h : Handle) : World := releaseHandle w n { h with ref := .finalized }

/-! ### call.c and export.c -/

/-- `*msg_ptr = sd_bus_message_ref(msg)`, of a handle that goes to Janet code. -/
def messageRef (w : World) (m : ℕ) : World :=
  match w.messages[m]? with
  | some g =>
    { w with
      messages := w.messages.set m { g with refs := g.refs + 1 }
      handles := w.handles ++ [⟨.message m, .user⟩]
      fault := w.fault || g.freed }
  | none => { w with fault := true }

/-- `*msg_ptr = message_copy(conn->bus, reply, type)`. `sd_bus_message_copy` copies one descriptor for
    each item of type `h`; a message whose items are not those of its descriptors makes it raise, or lose
    some, and is `copies` an error. Else the kernel gives the copies the numbers `copies`. If it raises,
    nobody has the copy, nor the handle. -/
def messageCopy (w : World) (m : ℕ) (copies : Except ℤ (List ℕ)) : World :=
  match w.messages[m]?, copies with
  | some g, .ok ks =>
    match g.fds.mapM w.table with
    | some fs =>
      { w with
        table := openAll w.table (ks.zip fs)
        messages := w.messages ++ [newMessage true 1 0 ks g.files]
        handles := w.handles ++ [⟨.message w.messages.length, .user⟩]
        fault := w.fault || g.freed }
    | none => { w with fault := true }
  | _, _ => { w with
      messages := w.messages ++ [newMessage false 1 0 [] []]
      handles := w.handles ++ [⟨.garbage, .dropped⟩] }

/-! ### Streams -/

/-- The program opens a file, or `read` was given one. -/
def addStream (w : World) (s : Stream) : World :=
  { w with table := openAll w.table [(s.fd, s.file)], streams := w.streams ++ [s] }

/-- `:close`, and the finalizer; the flag says that it was done. -/
def closeStream (w : World) (n : ℕ) (s : Stream) (ref : Ref) : World :=
  if s.closed then { w with streams := w.streams.set n { s with ref := ref } }
  else { w with
    streams := w.streams.set n { s with closed := true, ref := ref }
    table := (closeAll w.table w.fault [s.fd]).1
    fault := (closeAll w.table w.fault [s.fd]).2 }

/-! ### Steps -/

inductive Step where
  | opened (kind : Kind) (k : ℕ) (f : File) (flags : Flags)
  | create (function : String) (rv : ℤ)
  /-- sd-bus reads a message with descriptors from its socket -/
  | receive (ks : List ℕ) (fs : List File)
  /-- a handler makes a handle for the message that is being dispatched -/
  | deliver (m : ℕ)
  | copy (m : ℕ) (copies : Except ℤ (List ℕ))
  /-- sd-bus has dispatched or written the message -/
  | done (m : ℕ)
  | append (n i : ℕ) (copy : Except ℤ ℕ)
  | send (n : ℕ) (rv : ℤ) (queued sealed : Bool)
  | messageSeal (n : ℕ) (rv : ℤ)
  | read (n i : ℕ) (copy : Except ℤ ℕ)
  | unref (n : ℕ)
  | dropHandle (n : ℕ)
  | gcHandle (n : ℕ)
  | close (i : ℕ)
  | dropStream (i : ℕ)
  | gcStream (i : ℕ)

/-- The kernel gives out numbers that are not in use. -/
def World.unused (w : World) (copy : Except ℤ ℕ) : Prop :=
  match copy with
  | .ok k => w.table k = none
  | .error _ => True

instance (w : World) (copy : Except ℤ ℕ) : Decidable (w.unused copy) := by
  cases copy with
  | ok k => exact inferInstanceAs (Decidable (w.table k = none))
  | error rv => exact inferInstanceAs (Decidable True)

def World.allUnused (w : World) (ks : List ℕ) (count : ℕ) : Prop :=
  ks.length = count ∧ ks.Nodup ∧ ∀ k ∈ ks, w.table k = none

instance (w : World) (ks : List ℕ) (count : ℕ) : Decidable (w.allUnused ks count) :=
  inferInstanceAs (Decidable (_ ∧ _ ∧ _))

def step (strerror : ℤ → String) (w : World) : Step → Option World
  | .opened kind k f flags =>
    if w.table k = none then some (addStream w ⟨kind, k, f, flags, false, .user⟩) else none
  | .create function rv => some (cfunMessageNew strerror w function rv).world
  | .receive ks fs =>
    if w.allUnused ks fs.length then
      some { w with
        table := openAll w.table (ks.zip fs)
        messages := w.messages ++ [newMessage true 0 1 ks fs] }
    else none
  | .deliver m => w.messages[m]?.bind fun g => if 0 < g.queued then some (messageRef w m) else none
  | .copy m copies => w.messages[m]?.bind fun g =>
    if 0 < g.queued ∧ ∀ ks ∈ copies.toOption, w.allUnused ks g.fds.length then some (messageCopy w m copies) else none
  | .done m => w.messages[m]?.bind fun g => if 0 < g.queued then some (messageUnqueue w m) else none
  | .append n i copy => w.handles[n]?.bind fun h => w.streams[i]?.bind fun s =>
    if h.ref = .user ∧ s.ref = .user ∧ w.unused copy then
      some (cfunMessageAppend strerror w h.msg s copy).world
    else none
  | .send n rv queued sealed => w.handles[n]?.bind fun h =>
    if h.ref = .user then some (cfunMessageSend strerror w h.msg rv queued sealed).world else none
  | .messageSeal n rv => w.handles[n]?.bind fun h =>
    if h.ref = .user then some (cfunMessageSeal strerror w h.msg rv).world else none
  | .read n i copy => w.handles[n]?.bind fun h =>
    if h.ref = .user ∧ w.unused copy then some (cfunMessageRead strerror w h.msg i copy).world else none
  | .unref n => w.handles[n]?.bind fun h => if h.ref = .user then some (cfunMessageUnref w n h) else none
  | .dropHandle n => w.handles[n]?.bind fun h =>
    if h.ref = .user then some { w with handles := w.handles.set n { h with ref := .dropped } } else none
  | .gcHandle n => w.handles[n]?.bind fun h => if h.ref = .dropped then some (gcSdbusMessage w n h) else none
  | .close i => w.streams[i]?.bind fun s => if s.ref = .user then some (closeStream w i s .user) else none
  | .dropStream i => w.streams[i]?.bind fun s =>
    if s.ref = .user then some { w with streams := w.streams.set i { s with ref := .dropped } } else none
  | .gcStream i => w.streams[i]?.bind fun s => if s.ref = .dropped then some (closeStream w i s .finalized) else none

def initial : World where
  table := fun _ => none
  messages := []
  handles := []
  streams := []
  fault := false

/-! ### Owners -/

/-- The `i`-th descriptor in a message, or that of a stream. -/
inductive Owner where
  | message (m i : ℕ)
  | stream (n : ℕ)
  deriving DecidableEq

def SdBusMessage.descriptor (g : SdBusMessage) (i : ℕ) : Option (ℕ × File) :=
  if g.freed then none else (g.fds.zip g.files)[i]?

def Stream.descriptor (s : Stream) : Option (ℕ × File) := if s.closed then none else some (s.fd, s.file)

def World.descriptor (w : World) : Owner → Option (ℕ × File)
  | .message m i => w.messages[m]?.bind fun g => g.descriptor i
  | .stream n => w.streams[n]?.bind Stream.descriptor

/-- The descriptors are owned, and the references counted. -/
structure Inv (w : World) : Prop where
  owns : Owns w.table w.descriptor
  lengths : ∀ g ∈ w.messages, g.fds.length = g.files.length
  refs : ∀ m g, w.messages[m]? = some g → g.refs = w.handles.countP fun h => h.msg = .message m
  freed : ∀ g ∈ w.messages, g.freed = true ↔ g.refs = 0 ∧ g.queued = 0
  known : ∀ h ∈ w.handles, ∀ m, h.msg = .message m → m < w.messages.length
  written : ∀ h ∈ w.handles, h.msg ≠ .garbage
  fault : w.fault = false

variable {w w' : World} {m n i : ℕ} {g : SdBusMessage} {h : Handle} {s : Stream}

/-! ### Steps that move no descriptor -/

theorem descriptor_setMessage (hg : w.messages[m]? = some g) {g' : SdBusMessage}
    (hsame : ∀ i, g'.descriptor i = g.descriptor i) (o : Owner) :
    ({ w with messages := w.messages.set m g' } : World).descriptor o = w.descriptor o := by
  cases o with
  | stream n => rfl
  | message m' i =>
    by_cases hm : m' = m
    · subst hm
      simp only [World.descriptor, get_replaced hg, hg, Option.bind_some, hsame]
    · simp only [World.descriptor, get_other hm]

theorem descriptor_setStream (hs : w.streams[n]? = some s) {s' : Stream} (hsame : s'.descriptor = s.descriptor)
    (o : Owner) : ({ w with streams := w.streams.set n s' } : World).descriptor o = w.descriptor o := by
  cases o with
  | message m i => rfl
  | stream n' =>
    by_cases hn : n' = n
    · subst hn
      simp only [World.descriptor, get_replaced hs, hs, Option.bind_some, hsame]
    · simp only [World.descriptor, get_other hn]

/-- Who has a handle makes no difference. -/
theorem Inv.setRef (hI : Inv w) (hn : w.handles[n]? = some h) (ref : Ref) :
    Inv { w with handles := w.handles.set n { h with ref := ref } } where
  owns := hI.owns
  lengths := hI.lengths
  refs m g hg := by
    have hcount := countP_replace (fun h => decide (h.msg = .message m)) hn { h with ref := ref }
    have hrefs := hI.refs m g hg
    dsimp only at hcount ⊢
    omega
  freed := hI.freed
  known := forall_replace hn hI.known (hI.known h (List.mem_of_getElem? hn))
  written := forall_replace hn hI.written (hI.written h (List.mem_of_getElem? hn))
  fault := hI.fault

theorem Inv.setStream (hI : Inv w) (hn : w.streams[n]? = some s) {s' : Stream} (hsame : s'.descriptor = s.descriptor) :
    Inv { w with streams := w.streams.set n s' } :=
  ⟨hI.owns.congr (descriptor_setStream hn hsame), hI.lengths, hI.refs, hI.freed, hI.known, hI.written, hI.fault⟩

/-- A message that a handle points to lives. -/
theorem Inv.live (hI : Inv w) (hh : h ∈ w.handles) (hm : h.msg = .message m) :
    ∃ g, w.messages[m]? = some g ∧ g.freed = false := by
  have hlt := hI.known h hh m hm
  refine ⟨w.messages[m], List.getElem?_eq_getElem hlt, ?_⟩
  have hpos : 0 < w.handles.countP fun h => h.msg = .message m :=
    List.countP_pos_iff.mpr ⟨h, hh, decide_eq_true hm⟩
  have hrefs := hI.refs m _ (List.getElem?_eq_getElem hlt)
  refine Bool.eq_false_iff.mpr fun hf => ?_
  have hzero := ((hI.freed _ (List.getElem_mem hlt)).mp hf).1
  omega

theorem touch_live (hg : w.messages[m]? = some g) (hf : g.freed = false) : w.touch m = w := by
  rw [World.touch, hg, Option.elim_some, hf, Bool.or_false]

theorem Inv.touch (hI : Inv w) (hh : h ∈ w.handles) (hm : h.msg = .message m) : w.touch m = w := by
  obtain ⟨g, hg, hf⟩ := hI.live hh hm
  exact touch_live hg hf

/-! ### New descriptors -/

theorem zip_keys {ks : List ℕ} {fs : List File} (h : ks.length = fs.length) : (ks.zip fs).map Prod.fst = ks :=
  List.map_fst_zip (Nat.le_of_eq h)

theorem get_append_new {α : Type} {l : List α} {x y : α} {m : ℕ} (h : (l ++ [x])[m]? = some y) :
    (m = l.length ∧ y = x) ∨ l[m]? = some y := by
  rcases Nat.lt_or_ge m l.length with hlt | hge
  · exact .inr ((List.getElem?_append_left hlt).symm.trans h)
  · rw [List.getElem?_append_right hge] at h
    obtain ⟨hlt, rfl⟩ := List.getElem?_eq_some_iff.mp h
    have hm : m - l.length = 0 := Nat.lt_one_iff.mp hlt
    refine .inl ⟨by omega, ?_⟩
    simp only [hm, List.getElem_cons_zero]

/-- A new message, with its descriptors. -/
theorem Inv.addMessage (hI : Inv w) (ks : List ℕ) (fs : List File) (new : List Handle)
    (hlen : ks.length = fs.length) (hfree : Free w.table ks) {sealed : Bool} {refs queued : ℕ}
    (hnew : ∀ h ∈ new, h.msg = .message w.messages.length) (hrefs : refs = new.length) (hheld : 0 < refs + queued) :
    Inv { w with
      table := openAll w.table (ks.zip fs)
      messages := w.messages ++ [newMessage sealed refs queued ks fs]
      handles := w.handles ++ new } where
  owns := by
    have hkeys := zip_keys hlen
    refine hI.owns.open (ks.zip fs) (.message w.messages.length) (by rwa [hkeys])
      (fun i => ?_) (fun i => ?_) fun o ho => ?_
    · simp only [World.descriptor, List.getElem?_eq_none (Nat.le_refl _), Option.bind_none]
    · simp only [World.descriptor, List.getElem?_concat_length, Option.bind_some, SdBusMessage.descriptor, newMessage,
        Bool.false_eq_true, if_false]
    · cases o with
      | stream n => rfl
      | message m i =>
        have hm : m ≠ w.messages.length := fun heq => ho i (by rw [heq])
        simp only [World.descriptor]
        rcases Nat.lt_or_gt_of_ne hm with hlt | hgt
        · rw [List.getElem?_append_left hlt]
        · rw [List.getElem?_eq_none (by rw [List.length_append]; exact hgt), List.getElem?_eq_none (Nat.le_of_lt hgt)]
  lengths g hg := by
    rcases List.mem_append.mp hg with hg | hg
    · exact hI.lengths g hg
    · obtain rfl := List.mem_singleton.mp hg
      exact hlen
  refs m g hg := by
    rw [List.countP_append]
    rcases get_append_new hg with ⟨rfl, rfl⟩ | hg
    · have hnone : (w.handles.countP fun h => h.msg = .message w.messages.length) = 0 := by
        refine List.countP_eq_zero.mpr fun h hh hm => ?_
        exact Nat.lt_irrefl _ (hI.known h hh _ (of_decide_eq_true hm))
      have hall : (new.countP fun h => h.msg = .message w.messages.length) = new.length :=
        List.countP_eq_length.mpr fun h hh => decide_eq_true (hnew h hh)
      rw [hnone, hall, Nat.zero_add, ← hrefs]
      rfl
    · have hlt := (List.getElem?_eq_some_iff.mp hg).1
      have hnone : (new.countP fun h => h.msg = .message m) = 0 := by
        refine List.countP_eq_zero.mpr fun h hh hm => ?_
        have heq := (hnew h hh).symm.trans (of_decide_eq_true hm)
        exact Nat.ne_of_gt hlt (Pointer.message.inj heq)
      rw [hnone, Nat.add_zero]
      exact hI.refs m g hg
  freed g hg := by
    rcases List.mem_append.mp hg with hg | hg
    · exact hI.freed g hg
    · obtain rfl := List.mem_singleton.mp hg
      simp only [newMessage, Bool.false_eq_true, false_iff]
      omega
  known h hh m hm := by
    rw [List.length_append]
    rcases List.mem_append.mp hh with hh | hh
    · exact Nat.lt_of_lt_of_le (hI.known h hh m hm) (Nat.le_add_right _ _)
    · obtain rfl := Pointer.message.inj ((hnew h hh).symm.trans hm)
      exact Nat.lt_succ_self _
  written h hh hm := by
    rcases List.mem_append.mp hh with hh | hh
    · exact hI.written h hh hm
    · rw [hnew h hh] at hm
      cases hm
  fault := hI.fault

theorem Inv.addStream (hI : Inv w) (hs : s.closed = false) (hfree : w.table s.fd = none) :
    Inv (addStream w s) where
  owns := by
    refine hI.owns.open [(s.fd, s.file)] (fun i => .stream (w.streams.length + i))
      ⟨List.nodup_singleton _, fun k hk => (List.mem_singleton.mp hk) ▸ hfree⟩ (fun i => ?_) (fun i => ?_) fun o ho => ?_
    · simp only [World.descriptor, List.getElem?_eq_none (Nat.le_add_right _ i), Option.bind_none]
    · simp only [World.descriptor, Descriptors.addStream]
      rw [List.getElem?_append_right (Nat.le_add_right _ i), Nat.add_sub_cancel_left]
      cases i with
      | zero => simp [Stream.descriptor, hs]
      | succ i => rfl
    · cases o with
      | message m i => rfl
      | stream n =>
        have hlt : n < w.streams.length := by
          refine Nat.lt_of_not_le fun hle => ho (n - w.streams.length) ?_
          rw [Nat.add_sub_cancel' hle]
        simp only [World.descriptor, Descriptors.addStream, List.getElem?_append_left hlt]
  lengths := hI.lengths
  refs := hI.refs
  freed := hI.freed
  known := hI.known
  written := hI.written
  fault := hI.fault

/-- One more descriptor in a message. -/
theorem Inv.addFd (hI : Inv w) (hg : w.messages[m]? = some g) (hf : g.freed = false) {k : ℕ} (file : File)
    (hfree : w.table k = none) :
    Inv { w with
      table := openAll w.table [(k, file)]
      messages := w.messages.set m { g with fds := g.fds ++ [k], files := g.files ++ [file] } } where
  owns := by
    have hlen := hI.lengths g (List.mem_of_getElem? hg)
    have hzip : (g.fds ++ [k]).zip (g.files ++ [file]) = g.fds.zip g.files ++ [(k, file)] := by
      rw [List.zip_append hlen]
      rfl
    have hzlen : (g.fds.zip g.files).length = g.fds.length := by
      rw [List.length_zip, ← hlen, Nat.min_self]
    refine hI.owns.open [(k, file)] (fun i => .message m (g.fds.length + i))
      ⟨List.nodup_singleton _, fun k' hk => (List.mem_singleton.mp hk) ▸ hfree⟩ (fun i => ?_) (fun i => ?_) fun o ho => ?_
    · simp only [World.descriptor, hg, Option.bind_some, SdBusMessage.descriptor, hf, Bool.false_eq_true, if_false]
      exact List.getElem?_eq_none (by rw [hzlen]; exact Nat.le_add_right _ i)
    · simp only [World.descriptor, get_replaced hg, Option.bind_some, SdBusMessage.descriptor, hf, Bool.false_eq_true,
        if_false, hzip]
      rw [← hzlen, List.getElem?_append_right (Nat.le_add_right _ i), Nat.add_sub_cancel_left]
    · cases o with
      | stream n => rfl
      | message m' i =>
        by_cases hm : m' = m
        · subst hm
          have hlt : i < g.fds.length := by
            refine Nat.lt_of_not_le fun hle => ho (i - g.fds.length) ?_
            rw [Nat.add_sub_cancel' hle]
          simp only [World.descriptor, get_replaced hg, hg, Option.bind_some, SdBusMessage.descriptor, hf,
            Bool.false_eq_true, if_false, hzip]
          rw [List.getElem?_append_left (by rw [hzlen]; exact hlt)]
        · simp only [World.descriptor, get_other hm]
  lengths := by
    refine forall_replace hg hI.lengths ?_
    rw [List.length_append, List.length_append, hI.lengths g (List.mem_of_getElem? hg)]
    rfl
  refs m' g' hg' := by
    rcases get_replace hg hg' with ⟨rfl, rfl⟩ | ⟨-, hold⟩
    · exact hI.refs m' g hg
    · exact hI.refs m' g' hold
  freed := forall_replace hg hI.freed (hI.freed g (List.mem_of_getElem? hg))
  known h hh m' hm := by
    rw [List.length_set]
    exact hI.known h hh m' hm
  written := hI.written
  fault := hI.fault

/-! ### What a message carries -/

theorem descriptor_at (hg : w.messages[m]? = some g) (hf : g.freed = false) {k : ℕ} {f : File}
    (hi : (g.fds.zip g.files)[i]? = some (k, f)) : w.descriptor (.message m i) = some (k, f) := by
  simp only [World.descriptor, hg, Option.bind_some, SdBusMessage.descriptor, hf, Bool.false_eq_true, if_false]
  exact hi

theorem Inv.zip_at (hI : Inv w) (hg : w.messages[m]? = some g) {k : ℕ} (hi : g.fds[i]? = some k) :
    ∃ f, g.files[i]? = some f ∧ (g.fds.zip g.files)[i]? = some (k, f) := by
  have hlen := hI.lengths g (List.mem_of_getElem? hg)
  have hlt := (List.getElem?_eq_some_iff.mp hi).1
  rw [hlen] at hlt
  exact ⟨_, List.getElem?_eq_getElem hlt, List.getElem?_zip_eq_some.mpr ⟨hi, List.getElem?_eq_getElem hlt⟩⟩

theorem Inv.fds_nodup (hI : Inv w) (hg : w.messages[m]? = some g) (hf : g.freed = false) : g.fds.Nodup := by
  rw [List.nodup_iff_getElem?_ne_getElem?]
  intro i j hij hj heq
  have hk := List.getElem?_eq_getElem (l := g.fds) (Nat.lt_trans hij hj)
  obtain ⟨f, -, hzip⟩ := hI.zip_at hg hk
  obtain ⟨f', -, hzip'⟩ := hI.zip_at hg (heq.symm.trans hk)
  have hsame := hI.owns.once _ _ _ _ _ (descriptor_at hg hf hzip) (descriptor_at hg hf hzip')
  exact Nat.ne_of_lt hij (Owner.message.inj hsame).2

theorem mem_fds (hI : Inv w) (hg : w.messages[m]? = some g) (hf : g.freed = false) (k : ℕ) :
    k ∈ g.fds ↔ ∃ o f, (∃ i, o = Owner.message m i) ∧ w.descriptor o = some (k, f) := by
  constructor
  · intro hk
    obtain ⟨i, hi⟩ := List.mem_iff_getElem?.mp hk
    obtain ⟨f, -, hzip⟩ := hI.zip_at hg hi
    exact ⟨_, f, ⟨i, rfl⟩, descriptor_at hg hf hzip⟩
  · rintro ⟨_, f, ⟨i, rfl⟩, hd⟩
    simp only [World.descriptor, hg, Option.bind_some, SdBusMessage.descriptor, hf, Bool.false_eq_true, if_false] at hd
    exact List.mem_of_getElem? (List.getElem?_zip_eq_some.mp hd).1

/-- The descriptors in a message are open, and refer to what they were put there for. -/
theorem Inv.mapM_table (hI : Inv w) (hg : w.messages[m]? = some g) (hf : g.freed = false) :
    g.fds.mapM w.table = some g.files := by
  have hmap : ∀ {ks : List ℕ} {fs : List File}, ks.length = fs.length →
      (∀ kf ∈ ks.zip fs, w.table kf.1 = some kf.2) → ks.mapM w.table = some fs := by
    intro ks
    induction ks with
    | nil =>
      intro fs hlen _
      rw [List.length_eq_zero_iff.mp hlen.symm]
      rfl
    | cons k ks ih =>
      intro fs hlen hall
      cases fs with
      | nil => cases hlen
      | cons f fs =>
        have hk : w.table k = some f := hall (k, f) List.mem_cons_self
        have hks := ih (Nat.succ.inj hlen) fun kf hkf => hall kf (List.mem_cons_of_mem _ hkf)
        rw [List.mapM_cons, hk, hks]
        rfl
  refine hmap (hI.lengths g (List.mem_of_getElem? hg)) fun kf hkf => ?_
  obtain ⟨i, hi⟩ := List.mem_iff_getElem?.mp hkf
  exact hI.owns.at (descriptor_at hg hf hi)

/-! ### Holders -/

/-- One holder of a message lets go: of its references those of the handles `hs` are left. -/
theorem Inv.release (hI : Inv w) (hg : w.messages[m]? = some g) (hf : g.freed = false)
    (count : SdBusMessage → ℕ) {drop : SdBusMessage → SdBusMessage} (hcount : count g ≠ 0)
    (hfds : (drop g).fds = g.fds) (hfiles : (drop g).files = g.files) (hfreed : (drop g).freed = false)
    {hs : List Handle} (hown : (drop g).refs = hs.countP fun h => h.msg = .message m)
    (hothers : ∀ m', m' ≠ m → (hs.countP fun h => h.msg = .message m') = w.handles.countP fun h => h.msg = .message m')
    (hknown : ∀ h ∈ hs, ∀ m', h.msg = .message m' → m' < w.messages.length) (hwritten : ∀ h ∈ hs, h.msg ≠ .garbage) :
    Inv { release w m count drop with handles := hs } := by
  have hlens : (drop g).fds.length = (drop g).files.length := by
    rw [hfds, hfiles]
    exact hI.lengths g (List.mem_of_getElem? hg)
  have hlive : ¬ (g.freed = true ∨ count g = 0) := by
    rw [hf]
    rintro (h | h)
    · cases h
    · exact hcount h
  rw [Descriptors.release, hg]
  simp only [if_neg hlive]
  split
  · next hlast =>
    have hopen : ∀ k ∈ g.fds, w.table k ≠ none := by
      intro k hk hnone
      obtain ⟨o, f, -, hd⟩ := (mem_fds hI hg hf k).mp hk
      rw [hI.owns.at hd] at hnone
      cases hnone
    refine ⟨?_, forall_replace hg hI.lengths hlens, fun m' g' hg' => ?_, ?_, fun h hh m' hm => ?_, hwritten, ?_⟩
    · refine hI.owns.close (P := fun o => ∃ i, o = .message m i) (mem_fds hI hg hf) ?_ fun o ho => ?_
      · rintro _ ⟨i, rfl⟩
        simp only [World.descriptor, get_replaced hg, Option.bind_some, SdBusMessage.descriptor, if_true]
      · cases o with
        | stream n => rfl
        | message m' i =>
          have hm : m' ≠ m := fun heq => ho ⟨i, by rw [heq]⟩
          simp only [World.descriptor, get_other hm]
    · rcases get_replace hg hg' with ⟨rfl, rfl⟩ | ⟨hne, hold⟩
      · exact hown
      · rw [hothers m' hne]
        exact hI.refs m' g' hold
    · exact forall_replace hg hI.freed ⟨fun _ => hlast, fun _ => rfl⟩
    · rw [List.length_set]
      exact hknown h hh m' hm
    · exact (closeAll_snd (hI.fds_nodup hg hf) hopen).trans hI.fault
  · next hmore =>
    refine ⟨?_, forall_replace hg hI.lengths hlens, fun m' g' hg' => ?_, ?_, fun h hh m' hm => ?_, hwritten, hI.fault⟩
    · refine hI.owns.congr (descriptor_setMessage hg fun i => ?_)
      rw [SdBusMessage.descriptor, SdBusMessage.descriptor, hfds, hfiles, hfreed, hf]
    · rcases get_replace hg hg' with ⟨rfl, rfl⟩ | ⟨hne, hold⟩
      · exact hown
      · rw [hothers m' hne]
        exact hI.refs m' g' hold
    · refine forall_replace hg hI.freed ⟨fun h => ?_, fun h => absurd h hmore⟩
      rw [hfreed] at h
      cases h
    · rw [List.length_set]
      exact hknown h hh m' hm

theorem release_handles (w : World) (m : ℕ) (count : SdBusMessage → ℕ) (drop : SdBusMessage → SdBusMessage) :
    (release w m count drop).handles = w.handles := by
  rw [release]
  split
  · split
    · rfl
    · split <;> rfl
  · rfl

theorem releaseHandle_null (hmsg : h.msg = .null) :
    releaseHandle w n h = { w with handles := w.handles.set n { h with msg := .null } } := by
  simp only [releaseHandle, hmsg]

theorem releaseHandle_message (hmsg : h.msg = .message m) :
    releaseHandle w n h = { messageUnref w m with handles := w.handles.set n { h with msg := .null } } := by
  simp only [releaseHandle, hmsg]
  rw [messageUnref, release_handles]

/-- The pointer of a handle is given up. -/
theorem Inv.releaseHandle (hI : Inv w) (hn : w.handles[n]? = some h) (h' : Handle) (hsame : h'.msg = h.msg) :
    Inv (releaseHandle w n h') := by
  have hmem := List.mem_of_getElem? hn
  have hcount := fun m => countP_replace (fun h => decide (h.msg = .message m)) hn { h' with msg := .null }
  have hknown := forall_replace hn hI.known (y := { h' with msg := .null }) fun m hm => by cases hm
  have hwritten := forall_replace hn hI.written (y := { h' with msg := .null }) fun hm => by cases hm
  cases hmsg : h.msg with
  | garbage => exact absurd hmsg (hI.written h hmem)
  | null =>
    rw [releaseHandle_null (hsame.trans hmsg)]
    refine ⟨hI.owns, hI.lengths, fun m g hg => ?_, hI.freed, hknown, hwritten, hI.fault⟩
    have hchange := hcount m
    rw [hmsg] at hchange
    have hrefs := hI.refs m g hg
    simp only [reduceCtorEq, decide_false, Bool.toNat_false, Nat.add_zero] at hchange
    exact hrefs.trans hchange.symm
  | message m =>
    obtain ⟨g, hg, hf⟩ := hI.live hmem hmsg
    have hrefs := hI.refs m g hg
    have hpos : 0 < w.handles.countP fun h => h.msg = .message m :=
      List.countP_pos_iff.mpr ⟨h, hmem, decide_eq_true hmsg⟩
    rw [releaseHandle_message (hsame.trans hmsg)]
    refine hI.release hg hf (·.refs) (by omega) rfl rfl hf ?_ (fun m' hne => ?_) hknown hwritten
    · have hchange := hcount m
      rw [hmsg] at hchange
      simp only [reduceCtorEq, decide_false, decide_true, Bool.toNat_false, Bool.toNat_true, Nat.add_zero] at hchange
      dsimp only
      omega
    · have hchange := hcount m'
      rw [hmsg] at hchange
      have hother : ¬ Pointer.message m = .message m' := fun heq => hne (Pointer.message.inj heq).symm
      simp only [reduceCtorEq, hother, decide_false, Bool.toNat_false, Nat.add_zero] at hchange
      exact hchange

/-- A message that sd-bus holds lives. -/
theorem Inv.held (hI : Inv w) (hg : w.messages[m]? = some g) (hq : 0 < g.queued) : g.freed = false := by
  refine Bool.eq_false_iff.mpr fun hf => ?_
  have hzero := ((hI.freed g (List.mem_of_getElem? hg)).mp hf).2
  omega

theorem Inv.unqueue (hI : Inv w) (hg : w.messages[m]? = some g) (hq : 0 < g.queued) : Inv (messageUnqueue w m) := by
  have hkept : { messageUnqueue w m with handles := w.handles } = messageUnqueue w m := by
    conv_lhs => rw [← release_handles w m (·.queued) fun g => { g with queued := g.queued - 1 }]
    rfl
  rw [← hkept]
  have hf := hI.held hg hq
  exact hI.release hg hf (·.queued) (Nat.ne_of_gt hq) rfl rfl hf (hI.refs m g hg) (fun _ _ => rfl) hI.known hI.written

/-- One more handle for a message that lives. -/
theorem Inv.messageRef (hI : Inv w) (hg : w.messages[m]? = some g) (hf : g.freed = false) : Inv (messageRef w m) := by
  have hlt := (List.getElem?_eq_some_iff.mp hg).1
  have hcount : ∀ m', ((w.handles ++ [(⟨.message m, .user⟩ : Handle)]).countP fun h => h.msg = .message m') =
      (w.handles.countP fun h => h.msg = .message m') + (decide (m = m')).toNat := by
    intro m'
    rw [List.countP_append]
    by_cases heq : m = m'
    · simp [heq]
    · simp [heq]
  simp only [Descriptors.messageRef, hg]
  refine ⟨?_, forall_replace hg hI.lengths (hI.lengths g (List.mem_of_getElem? hg)), fun m' g' hg' => ?_, ?_,
    fun h hh m' hm => ?_, fun h hh hm => ?_, ?_⟩
  · exact hI.owns.congr (descriptor_setMessage hg fun _ => rfl)
  · rw [hcount]
    rcases get_replace hg hg' with ⟨rfl, rfl⟩ | ⟨hne, hold⟩
    · rw [decide_eq_true rfl, Bool.toNat_true, ← hI.refs m' g hg]
    · rw [decide_eq_false (Ne.symm hne), Bool.toNat_false, Nat.add_zero]
      exact hI.refs m' g' hold
  · refine forall_replace hg hI.freed ⟨fun h => ?_, fun h => ?_⟩
    · rw [hf] at h
      cases h
    · exact absurd h.1 (Nat.succ_ne_zero _)
  · rw [List.length_set]
    rcases List.mem_append.mp hh with hh | hh
    · exact hI.known h hh m' hm
    · obtain rfl := List.mem_singleton.mp hh
      obtain rfl := Pointer.message.inj hm
      exact hlt
  · rcases List.mem_append.mp hh with hh | hh
    · exact hI.written h hh hm
    · obtain rfl := List.mem_singleton.mp hh
      cases hm
  · rw [hf, Bool.or_false]
    exact hI.fault

theorem allUnused_free {ks : List ℕ} {count : ℕ} (h : w.allUnused ks count) : Free w.table ks := ⟨h.2.1, h.2.2⟩

theorem messageCopy_ok (hI : Inv w) (hg : w.messages[m]? = some g) (hf : g.freed = false) (ks : List ℕ) :
    messageCopy w m (.ok ks) =
      { w with
        table := openAll w.table (ks.zip g.files)
        messages := w.messages ++ [newMessage true 1 0 ks g.files]
        handles := w.handles ++ [⟨.message w.messages.length, .user⟩] } := by
  simp only [messageCopy, hg, hI.mapM_table hg hf, hf, Bool.or_false]

theorem Inv.copy (hI : Inv w) (hg : w.messages[m]? = some g) (hf : g.freed = false) {ks : List ℕ}
    (hks : w.allUnused ks g.fds.length) : Inv (messageCopy w m (.ok ks)) := by
  rw [messageCopy_ok hI hg hf]
  refine hI.addMessage ks g.files [_] (hks.1.trans (hI.lengths g (List.mem_of_getElem? hg))) (allUnused_free hks)
    (fun h hh => ?_) rfl Nat.one_pos
  obtain rfl := List.mem_singleton.mp hh
  rfl

/-! ### Reading and appending -/

section calls
variable (strerror : ℤ → String)

/-- sd-bus is asked about a message that lives, or not at all. -/
theorem onMessage_cases (hI : Inv w) (hh : h ∈ w.handles) (function : String) (f : World → ℕ → Result) :
    (onMessage strerror w h.msg function f).world = w ∨
      ∃ m g, h.msg = .message m ∧ w.messages[m]? = some g ∧ g.freed = false ∧
        onMessage strerror w h.msg function f = f w m := by
  cases hmsg : h.msg with
  | null => exact .inl rfl
  | garbage => exact absurd hmsg (hI.written h hh)
  | message m =>
    obtain ⟨g, hg, hf⟩ := hI.live hh hmsg
    refine .inr ⟨m, g, rfl, hg, hf, ?_⟩
    rw [onMessage, hI.touch hh hmsg]

theorem isSealed_eq (hg : w.messages[m]? = some g) : w.isSealed m = g.sealed := by
  rw [World.isSealed, hg]
  rfl

theorem appendFd_ok (hI : Inv w) (hg : w.messages[m]? = some g) (hseal : g.sealed = false) (hs : s ∈ w.streams) (hopen : s.closed = false) (k : ℕ) :
    appendFd strerror w m s.fd s.file (.ok k) = .returned { w with
      table := openAll w.table [(k, s.file)]
      messages := w.messages.set m { g with fds := g.fds ++ [k], files := g.files ++ [s.file] } } := by
  obtain ⟨n, hn⟩ := List.mem_iff_getElem?.mp hs
  have hd : w.descriptor (.stream n) = some (s.fd, s.file) := by
    simp only [World.descriptor, hn, Option.bind_some, Stream.descriptor, hopen, Bool.false_eq_true, if_false]
  simp only [appendFd, isSealed_eq hg, hseal, hg, hI.owns.at hd, Bool.false_eq_true, if_false]

theorem Inv.append (hI : Inv w) (hh : h ∈ w.handles) (hs : s ∈ w.streams) {copy : Except ℤ ℕ} (hfree : w.unused copy) :
    Inv (cfunMessageAppend strerror w h.msg s copy).world := by
  rw [cfunMessageAppend, getfd]
  cases hclosed : s.closed with
  | true => exact hI
  | false =>
    show Inv (onMessage strerror w h.msg "sd_bus_message_append" fun w m => appendFd strerror w m s.fd s.file copy).world
    rcases onMessage_cases strerror hI hh "sd_bus_message_append" fun w m => appendFd strerror w m s.fd s.file copy
      with hsame | ⟨m, g, -, hg, hf, hrun⟩
    · rw [hsame]
      exact hI
    · rw [hrun]
      cases hseal : g.sealed with
      | true =>
        rw [appendFd.eq_def, if_pos ((isSealed_eq hg).trans hseal)]
        exact hI
      | false =>
        cases copy with
        | error rv =>
          simp only [appendFd, isSealed_eq hg, hseal, hg, Bool.false_eq_true, if_false]
          exact hI
        | ok k =>
          rw [appendFd_ok strerror hI hg hseal hs hclosed]
          exact hI.addFd hg hf s.file hfree

/-- The stream that a program gets for a descriptor. -/
def received (k : ℕ) (file : File) : Stream := ⟨.stream, k, file, streamFlags file, false, .user⟩

theorem readFdType_ok (hI : Inv w) (hg : w.messages[m]? = some g) (hf : g.freed = false) {fd : ℕ} {file : File}
    (hi : (g.fds.zip g.files)[i]? = some (fd, file)) (k : ℕ) :
    readFdType strerror w m i (.ok k) = .returned (addStream w (received k file)) := by
  have hfd := hI.owns.at (descriptor_at hg hf hi)
  have hk : openAll w.table [(k, file)] k = some file := Function.update_self k _ _
  rw [readFdType, hg, Option.bind_some, hi]
  simp only [hfd, hk]
  rfl

theorem Inv.readFd (hI : Inv w) (hg : w.messages[m]? = some g) (hf : g.freed = false) {copy : Except ℤ ℕ}
    (hfree : w.unused copy) : Inv (readFdType strerror w m i copy).world := by
  cases hi : (g.fds.zip g.files)[i]? with
  | none =>
    rw [readFdType, hg, Option.bind_some, hi]
    exact hI
  | some kf =>
    obtain ⟨fd, file⟩ := kf
    cases copy with
    | error rv =>
      rw [readFdType, hg, Option.bind_some, hi]
      simp only [hI.owns.at (descriptor_at hg hf hi)]
      exact hI
    | ok k =>
      rw [readFdType_ok strerror hI hg hf hi]
      exact hI.addStream rfl hfree

theorem Inv.read (hI : Inv w) (hh : h ∈ w.handles) {copy : Except ℤ ℕ} (hfree : w.unused copy) :
    Inv (cfunMessageRead strerror w h.msg i copy).world := by
  rw [cfunMessageRead]
  rcases onMessage_cases strerror hI hh "sd_bus_message_peek_type" fun w m =>
      if w.isSealed m then readFdType strerror w m i copy
      else .raised w (sdError strerror "sd_bus_message_peek_type" (-EPERM))
    with hsame | ⟨m, g, -, hg, hf, hrun⟩
  · rw [hsame]
    exact hI
  · rw [hrun]
    split
    · exact hI.readFd strerror hg hf hfree
    · exact hI

/-- sd-bus seals a message, or keeps it a while. -/
theorem Inv.setMessage (hI : Inv w) (hh : h ∈ w.handles) (hmsg : h.msg = .message m) (hg : w.messages[m]? = some g)
    (hf : g.freed = false) (sealed : Bool) (queued : ℕ) :
    Inv { w with messages := w.messages.set m { g with sealed := sealed, queued := queued } } := by
  have hpos : 0 < w.handles.countP fun h => h.msg = .message m :=
    List.countP_pos_iff.mpr ⟨h, hh, decide_eq_true hmsg⟩
  have hrefs := hI.refs m g hg
  refine ⟨hI.owns.congr (descriptor_setMessage hg fun _ => rfl),
    forall_replace hg hI.lengths (hI.lengths g (List.mem_of_getElem? hg)), fun m' g' hg' => ?_,
    forall_replace hg hI.freed ⟨fun h => ?_, fun h => ?_⟩, fun h' hh' m' hm => ?_, hI.written, hI.fault⟩
  · rcases get_replace hg hg' with ⟨rfl, rfl⟩ | ⟨-, hold⟩
    · exact hrefs
    · exact hI.refs m' g' hold
  · rw [hf] at h
    cases h
  · have hzero : g.refs = 0 := h.1
    omega
  · refine Nat.lt_of_lt_of_eq (hI.known h' hh' m' hm) ?_
    exact (List.length_set).symm

theorem Inv.send (hI : Inv w) (hh : h ∈ w.handles) (rv : ℤ) (queued sealed : Bool) :
    Inv (cfunMessageSend strerror w h.msg rv queued sealed).world := by
  rw [cfunMessageSend]
  rcases onMessage_cases strerror hI hh "sd_bus_message_send" fun w m => sendMessage strerror w m rv queued sealed
    with hsame | ⟨m, g, hmsg, hg, hf, hrun⟩
  · rw [hsame]
    exact hI
  · rw [hrun]
    simp only [sendMessage, hg]
    split
    · exact hI.setMessage hh hmsg hg hf (g.sealed || sealed) g.queued
    · exact hI.setMessage hh hmsg hg hf true (g.queued + queued.toNat)

theorem Inv.messageSeal (hI : Inv w) (hh : h ∈ w.handles) (rv : ℤ) : Inv (cfunMessageSeal strerror w h.msg rv).world := by
  rw [cfunMessageSeal]
  rcases onMessage_cases strerror hI hh "sd_bus_message_seal" fun w m => sealMessage strerror w m rv
    with hsame | ⟨m, g, hmsg, hg, hf, hrun⟩
  · rw [hsame]
    exact hI
  · rw [hrun]
    simp only [sealMessage, hg]
    split
    · exact hI
    · exact hI.setMessage hh hmsg hg hf true g.queued

end calls

theorem Inv.close (hI : Inv w) (hn : w.streams[n]? = some s) (ref : Ref) : Inv (closeStream w n s ref) := by
  rw [closeStream]
  split
  · next hclosed => exact hI.setStream hn rfl
  · next hopen =>
    have hclosed : s.closed = false := Bool.eq_false_iff.mpr hopen
    have hd : w.descriptor (.stream n) = some (s.fd, s.file) := by
      simp only [World.descriptor, hn, Option.bind_some, Stream.descriptor, hclosed, Bool.false_eq_true, if_false]
    refine ⟨?_, hI.lengths, hI.refs, hI.freed, hI.known, hI.written, ?_⟩
    · refine hI.owns.close (P := fun o => o = .stream n) (fun k => ?_) ?_ fun o ho => ?_
      · rw [List.mem_singleton]
        constructor
        · rintro rfl
          exact ⟨_, s.file, rfl, hd⟩
        · rintro ⟨_, f, rfl, hd'⟩
          exact (congrArg Prod.fst (Option.some.inj (hd.symm.trans hd'))).symm
      · rintro _ rfl
        simp only [World.descriptor, get_replaced hn, Option.bind_some, Stream.descriptor, if_true]
      · cases o with
        | message m i => rfl
        | stream n' =>
          have hne : n' ≠ n := fun heq => ho (by rw [heq])
          simp only [World.descriptor, get_other hne]
    · refine (closeAll_snd (List.nodup_singleton _) fun k hk => ?_).trans hI.fault
      rw [List.mem_singleton.mp hk, hI.owns.at hd]
      exact Option.some_ne_none _

/-! ### Every step -/

/-- `message_copy` does not raise. -/
def Step.copies : Step → Prop
  | .copy _ (.error _) => False
  | _ => True

/-- A step that looks something up and is guarded by what it finds. -/
theorem guarded {α : Type} {o : Option α} {ok : α → Prop} [DecidablePred ok] {f : α → World}
    (hs : (o.bind fun a => if ok a then some (f a) else none) = some w') : ∃ a, o = some a ∧ ok a ∧ f a = w' := by
  obtain ⟨a, ho, hs⟩ := Option.bind_eq_some_iff.mp hs
  obtain ⟨hok, hs⟩ := Option.ite_none_right_eq_some.mp hs
  exact ⟨a, ho, hok, Option.some.inj hs⟩

section steps
variable {strerror : ℤ → String}

theorem Inv.stepOpened (hI : Inv w) {kind : Kind} {k : ℕ} {f : File} {flags : Flags}
    (hs : step strerror w (.opened kind k f flags) = some w') : Inv w' := by
  obtain ⟨hfree, hs⟩ := Option.ite_none_right_eq_some.mp hs
  obtain rfl := Option.some.inj hs
  exact hI.addStream rfl hfree

theorem Inv.stepCreate (hI : Inv w) {function : String} {rv : ℤ}
    (hs : step strerror w (.create function rv) = some w') : Inv w' := by
  obtain rfl := Option.some.inj hs
  rw [cfunMessageNew]
  split
  · exact hI
  · refine hI.addMessage [] [] [_] rfl ⟨List.nodup_nil, fun k hk => absurd hk List.not_mem_nil⟩
      (fun h hh => ?_) rfl Nat.one_pos
    obtain rfl := List.mem_singleton.mp hh
    rfl

theorem Inv.stepReceive (hI : Inv w) {ks : List ℕ} {fs : List File}
    (hs : step strerror w (.receive ks fs) = some w') : Inv w' := by
  obtain ⟨hfree, hs⟩ := Option.ite_none_right_eq_some.mp hs
  obtain rfl := Option.some.inj hs
  have hnew : Inv { w with
      table := openAll w.table (ks.zip fs)
      messages := w.messages ++ [newMessage true 0 1 ks fs]
      handles := w.handles ++ [] } :=
    hI.addMessage ks fs [] hfree.1 (allUnused_free hfree) (fun h hh => absurd hh List.not_mem_nil) rfl Nat.one_pos
  rwa [List.append_nil] at hnew

theorem Inv.stepCopy (hI : Inv w) {copies : Except ℤ (List ℕ)} (ha : (Step.copy m copies).copies)
    (hs : step strerror w (.copy m copies) = some w') : Inv w' := by
  obtain ⟨g, hg, ⟨hheld, hunused⟩, rfl⟩ := guarded hs
  cases copies with
  | error rv => exact ha.elim
  | ok ks => exact hI.copy hg (hI.held hg hheld) (hunused ks rfl)

theorem Inv.stepAppend (hI : Inv w) {copy : Except ℤ ℕ} (hs : step strerror w (.append n i copy) = some w') :
    Inv w' := by
  obtain ⟨h, hn, hs⟩ := Option.bind_eq_some_iff.mp hs
  obtain ⟨s, hi, ⟨-, -, hfree⟩, rfl⟩ := guarded hs
  exact hI.append strerror (List.mem_of_getElem? hn) (List.mem_of_getElem? hi) hfree

theorem Inv.step (hI : Inv w) {a : Step} (ha : a.copies) (hs : step strerror w a = some w') : Inv w' := by
  cases a with
  | opened kind k f flags => exact hI.stepOpened hs
  | create function rv => exact hI.stepCreate hs
  | receive ks fs => exact hI.stepReceive hs
  | deliver m =>
    obtain ⟨g, hg, hheld, rfl⟩ := guarded hs
    exact hI.messageRef hg (hI.held hg hheld)
  | copy m copies => exact hI.stepCopy ha hs
  | done m =>
    obtain ⟨g, hg, hheld, rfl⟩ := guarded hs
    exact hI.unqueue hg hheld
  | append n i copy => exact hI.stepAppend hs
  | send n rv queued sealed =>
    obtain ⟨h, hn, -, rfl⟩ := guarded hs
    exact hI.send strerror (List.mem_of_getElem? hn) rv queued sealed
  | messageSeal n rv =>
    obtain ⟨h, hn, -, rfl⟩ := guarded hs
    exact hI.messageSeal strerror (List.mem_of_getElem? hn) rv
  | read n i copy =>
    obtain ⟨h, hn, ⟨-, hfree⟩, rfl⟩ := guarded hs
    exact hI.read strerror (List.mem_of_getElem? hn) hfree
  | unref n =>
    obtain ⟨h, hn, -, rfl⟩ := guarded hs
    exact hI.releaseHandle hn h rfl
  | dropHandle n =>
    obtain ⟨h, hn, -, rfl⟩ := guarded hs
    exact hI.setRef hn .dropped
  | gcHandle n =>
    obtain ⟨h, hn, -, rfl⟩ := guarded hs
    exact hI.releaseHandle hn { h with ref := .finalized } rfl
  | close i =>
    obtain ⟨s, hi, -, rfl⟩ := guarded hs
    exact hI.close hi .user
  | dropStream i =>
    obtain ⟨s, hi, -, rfl⟩ := guarded hs
    exact hI.setStream hi rfl
  | gcStream i =>
    obtain ⟨s, hi, -, rfl⟩ := guarded hs
    exact hI.close hi .finalized

end steps

theorem Inv.initial : Inv initial where
  owns := ⟨fun _ _ => ⟨fun h => (by cases h), fun ⟨o, h⟩ => (by cases o <;> cases h)⟩,
    fun o _ _ _ _ h => by cases o <;> cases h⟩
  lengths g hg := absurd hg List.not_mem_nil
  refs m g hg := by cases hg
  freed g hg := absurd hg List.not_mem_nil
  known h hh := absurd hh List.not_mem_nil
  written h hh := absurd hh List.not_mem_nil
  fault := rfl

theorem inv_run {strerror : ℤ → String} {steps : List Step} (hcopies : ∀ a ∈ steps, a.copies)
    (hrun : exec (step strerror) Descriptors.initial steps = some w) : Inv w :=
  (Meets.of_forall hcopies).invariant (fun _ _ _ hI ha hs => hI.step ha hs) Inv.initial hrun

/-! ### What stays in a message -/

/-- Messages stay, and what was put into them. -/
def Grows (w w' : World) : Prop :=
  ∀ (m : ℕ) (g : SdBusMessage), w.messages[m]? = some g →
    ∃ g' : SdBusMessage, w'.messages[m]? = some g' ∧ g.files <+: g'.files

theorem grows_same (h : w'.messages = w.messages) : Grows w w' := by
  intro m g hg
  exact ⟨g, h ▸ hg, List.prefix_rfl⟩

theorem grows_set (hg : w.messages[m]? = some g) {x : SdBusMessage} (hfiles : g.files <+: x.files)
    (h : w'.messages = w.messages.set m x) : Grows w w' := by
  intro m' y hy
  by_cases hm : m' = m
  · subst hm
    obtain rfl := Option.some.inj (hg.symm.trans hy)
    exact ⟨x, h ▸ get_replaced hg x, hfiles⟩
  · exact ⟨y, h ▸ (get_other hm x).trans hy, List.prefix_rfl⟩

theorem grows_append {g' : SdBusMessage} (h : w'.messages = w.messages ++ [g']) : Grows w w' := by
  intro m x hx
  have hlt := (List.getElem?_eq_some_iff.mp hx).1
  exact ⟨x, h ▸ (List.getElem?_append_left hlt).trans hx, List.prefix_rfl⟩

theorem release_grows (m : ℕ) (count : SdBusMessage → ℕ) {drop : SdBusMessage → SdBusMessage}
    (hdrop : ∀ g, (drop g).files = g.files) : Grows w (release w m count drop) := by
  rw [release]
  split
  · next g hg =>
    have hfiles : g.files <+: (drop g).files := by rw [hdrop]
    split
    · exact grows_same rfl
    · split
      · exact grows_set hg (x := { drop g with freed := true }) hfiles rfl
      · exact grows_set hg hfiles rfl
  · exact grows_same rfl

theorem releaseHandle_grows (n : ℕ) (h : Handle) : Grows w (releaseHandle w n h) := by
  cases hmsg : h.msg with
  | null => exact grows_same (by rw [releaseHandle_null hmsg])
  | message m =>
    rw [releaseHandle_message hmsg]
    have hgrows : Grows w (messageUnref w m) := release_grows m (·.refs) fun _ => rfl
    intro m' g' hg'
    exact hgrows m' g' hg'
  | garbage => exact grows_same (by rw [releaseHandle, hmsg])

theorem messageRef_grows (m : ℕ) : Grows w (messageRef w m) := by
  rw [messageRef]
  split
  · next g hg => exact grows_set hg (x := { g with refs := g.refs + 1 }) List.prefix_rfl rfl
  · exact grows_same rfl

theorem messageCopy_grows (m : ℕ) (copies : Except ℤ (List ℕ)) : Grows w (messageCopy w m copies) := by
  rw [messageCopy.eq_def]
  split
  · split
    · exact grows_append rfl
    · exact grows_same rfl
  · exact grows_append rfl

theorem closeStream_grows (n : ℕ) (s : Stream) (ref : Ref) : Grows w (closeStream w n s ref) := by
  rw [closeStream]
  split <;> exact grows_same rfl

section calls
variable (strerror : ℤ → String)

theorem onMessage_grows (p : Pointer) (function : String) {f : World → ℕ → Result}
    (hf : ∀ w m, Grows w (f w m).world) : Grows w (onMessage strerror w p function f).world := by
  cases p with
  | null => exact grows_same rfl
  | message m =>
    intro m' g' hg'
    exact hf (w.touch m) m m' g' hg'
  | garbage => exact grows_same rfl

theorem append_grows (p : Pointer) (s : Stream) (copy : Except ℤ ℕ) :
    Grows w (cfunMessageAppend strerror w p s copy).world := by
  rw [cfunMessageAppend]
  split
  · exact grows_same rfl
  · refine onMessage_grows strerror p _ fun w m => ?_
    rw [appendFd.eq_def]
    split
    · exact grows_same rfl
    · split
      · next g k f hg _ =>
        exact grows_set hg (x := { g with fds := g.fds ++ [k], files := g.files ++ [s.file] })
          (List.prefix_append _ _) rfl
      · exact grows_same rfl
      · exact grows_same rfl

theorem readFd_grows (m i : ℕ) (copy : Except ℤ ℕ) : Grows w (readFdType strerror w m i copy).world := by
  rw [readFdType]
  split
  · exact grows_same rfl
  · split
    · exact grows_same rfl
    · exact grows_same rfl
    · dsimp only
      split <;> exact grows_same rfl

theorem read_grows (p : Pointer) (i : ℕ) (copy : Except ℤ ℕ) : Grows w (cfunMessageRead strerror w p i copy).world := by
  refine onMessage_grows strerror p _ fun w m => ?_
  split
  · exact readFd_grows strerror m i copy
  · exact grows_same rfl

theorem send_grows (p : Pointer) (rv : ℤ) (queued sealed : Bool) :
    Grows w (cfunMessageSend strerror w p rv queued sealed).world := by
  refine onMessage_grows strerror p _ fun w m => ?_
  rw [sendMessage]
  split
  · next g hg =>
    split
    · exact grows_set hg (x := { g with sealed := g.sealed || sealed }) List.prefix_rfl rfl
    · exact grows_set hg (x := { g with queued := g.queued + queued.toNat, sealed := true }) List.prefix_rfl rfl
  · exact grows_same rfl

theorem seal_grows (p : Pointer) (rv : ℤ) : Grows w (cfunMessageSeal strerror w p rv).world := by
  refine onMessage_grows strerror p _ fun w m => ?_
  rw [sealMessage]
  split
  · next g hg =>
    split
    · exact grows_same rfl
    · exact grows_set hg (x := { g with sealed := true }) List.prefix_rfl rfl
  · exact grows_same rfl

theorem new_grows (function : String) (rv : ℤ) : Grows w (cfunMessageNew strerror w function rv).world := by
  rw [cfunMessageNew]
  split
  · exact grows_same rfl
  · exact grows_append rfl

end calls

theorem step_grows {strerror : ℤ → String} {a : Step} (hs : step strerror w a = some w') : Grows w w' := by
  cases a with
  | opened kind k f flags =>
    obtain ⟨-, ⟨⟩⟩ := Option.ite_none_right_eq_some.mp hs
    exact grows_same rfl
  | create function rv =>
    obtain rfl := Option.some.inj hs
    exact new_grows strerror function rv
  | receive ks fs =>
    obtain ⟨-, ⟨⟩⟩ := Option.ite_none_right_eq_some.mp hs
    exact grows_append rfl
  | deliver m =>
    obtain ⟨g, -, -, rfl⟩ := guarded hs
    exact messageRef_grows m
  | copy m copies =>
    obtain ⟨g, -, -, rfl⟩ := guarded hs
    exact messageCopy_grows m copies
  | done m =>
    obtain ⟨g, -, -, rfl⟩ := guarded hs
    exact release_grows m (·.queued) fun _ => rfl
  | append n i copy =>
    obtain ⟨h, -, hs⟩ := Option.bind_eq_some_iff.mp hs
    obtain ⟨s, -, -, rfl⟩ := guarded hs
    exact append_grows strerror h.msg s copy
  | send n rv queued sealed =>
    obtain ⟨h, -, -, rfl⟩ := guarded hs
    exact send_grows strerror h.msg rv queued sealed
  | messageSeal n rv =>
    obtain ⟨h, -, -, rfl⟩ := guarded hs
    exact seal_grows strerror h.msg rv
  | read n i copy =>
    obtain ⟨h, -, -, rfl⟩ := guarded hs
    exact read_grows strerror h.msg i copy
  | unref n =>
    obtain ⟨h, -, -, rfl⟩ := guarded hs
    exact releaseHandle_grows n h
  | dropHandle n =>
    obtain ⟨h, -, -, rfl⟩ := guarded hs
    exact grows_same rfl
  | gcHandle n =>
    obtain ⟨h, -, -, rfl⟩ := guarded hs
    exact releaseHandle_grows n { h with ref := .finalized }
  | close i =>
    obtain ⟨s, -, -, rfl⟩ := guarded hs
    exact closeStream_grows i s .user
  | dropStream i =>
    obtain ⟨s, -, -, rfl⟩ := guarded hs
    exact grows_same rfl
  | gcStream i =>
    obtain ⟨s, -, -, rfl⟩ := guarded hs
    exact closeStream_grows i s .finalized

theorem run_grows {strerror : ℤ → String} {steps : List Step} (hrun : exec (step strerror) w steps = some w') :
    Grows w w' := by
  induction steps generalizing w with
  | nil =>
    obtain rfl := Option.some.inj hrun
    exact grows_same rfl
  | cons a steps ih =>
    obtain ⟨w₁, hs, hrun⟩ := Option.bind_eq_some_iff.mp hrun
    intro m g hg
    obtain ⟨g₁, hg₁, hfiles₁⟩ := step_grows hs m g hg
    obtain ⟨g₂, hg₂, hfiles₂⟩ := ih hrun m g₁ hg₁
    exact ⟨g₂, hg₂, hfiles₁.trans hfiles₂⟩

/-! ### Every run -/

/-- Nothing is used after it was freed, nor freed twice; the open descriptors are those in messages that
    live and those of streams that are open, each owned once; a message lives as long as a handle has
    it or sd-bus holds it. So nothing is left of messages that nobody has. -/
theorem run_owned {strerror : ℤ → String} {steps : List Step} (hcopies : ∀ a ∈ steps, a.copies)
    (hrun : exec (step strerror) initial steps = some w) :
    w.fault = false ∧
    (∀ k f, w.table k = some f ↔ ∃ o, w.descriptor o = some (k, f)) ∧
    (∀ o o' k f f', w.descriptor o = some (k, f) → w.descriptor o' = some (k, f') → o = o') ∧
    (∀ m g, w.messages[m]? = some g →
      (g.freed = true ↔ (∀ h ∈ w.handles, h.msg ≠ .message m) ∧ g.queued = 0)) ∧
    ((∀ h ∈ w.handles, h.msg = .null) → (∀ g ∈ w.messages, g.queued = 0) →
      ∀ k f, w.table k = some f → ∃ s ∈ w.streams, s.closed = false ∧ s.fd = k ∧ s.file = f) := by
  have hI := inv_run hcopies hrun
  have hfreed : ∀ m g, w.messages[m]? = some g →
      (g.freed = true ↔ (∀ h ∈ w.handles, h.msg ≠ .message m) ∧ g.queued = 0) := by
    intro m g hg
    rw [hI.freed g (List.mem_of_getElem? hg), hI.refs m g hg, List.countP_eq_zero]
    simp only [decide_eq_true_eq]
  refine ⟨hI.fault, hI.owns.opened, hI.owns.once, hfreed, fun hnull hidle k f hk => ?_⟩
  obtain ⟨o, ho⟩ := (hI.owns.opened k f).mp hk
  cases o with
  | message m i =>
    obtain ⟨g, hg, hd⟩ := Option.bind_eq_some_iff.mp ho
    have hgone : g.freed = true := by
      refine (hfreed m g hg).mpr ⟨fun h hh hm => ?_, hidle g (List.mem_of_getElem? hg)⟩
      rw [hnull h hh] at hm
      cases hm
    rw [SdBusMessage.descriptor, if_pos hgone] at hd
    cases hd
  | stream n =>
    obtain ⟨s, hs, hd⟩ := Option.bind_eq_some_iff.mp ho
    rw [Stream.descriptor] at hd
    split at hd
    · cases hd
    · next hopen =>
      obtain ⟨rfl, rfl⟩ := Prod.mk.inj (Option.some.inj hd)
      exact ⟨s, List.mem_of_getElem? hs, Bool.eq_false_iff.mpr hopen, rfl, rfl⟩

/-- What is put into a message is what is read from it, at any later time at which it is sealed and
    through any handle, with whatever numbers the kernel gives out and whatever has become of the
    stream: a stream of the same open file, with the flags of that file. Before, reading raises. -/
theorem run_passes {strerror : ℤ → String} {steps later : List Step} (hcopies : ∀ a ∈ steps ++ later, a.copies)
    (hrun : exec (step strerror) initial steps = some w) {k : ℕ} (hh : w.handles[n]? = some h)
    (hs : w.streams[i]? = some s) (hopen : s.closed = false) (hmsg : h.msg = .message m)
    (hg : w.messages[m]? = some g) (hseal : g.sealed = false) {w₁ w₂ : World}
    (happend : step strerror w (.append n i (.ok k)) = some w₁)
    (hlater : exec (step strerror) w₁ later = some w₂) {h₂ : Handle} (hh₂ : h₂ ∈ w₂.handles)
    (hmsg₂ : h₂.msg = .message m) (k₂ : ℕ) :
    cfunMessageRead strerror w₂ h₂.msg g.files.length (.ok k₂) =
      if w₂.isSealed m then .returned (addStream w₂ (received k₂ s.file))
      else .raised w₂ (sdError strerror "sd_bus_message_peek_type" (-EPERM)) := by
  have hI := inv_run (fun a ha => hcopies a (List.mem_append_left _ ha)) hrun
  have hI₁ : Inv w₁ := hI.step (a := .append n i (.ok k)) trivial happend
  have hI₂ : Inv w₂ := (Meets.of_forall fun a ha => hcopies a (List.mem_append_right _ ha)).invariant
    (fun _ _ _ hI ha hs => hI.step ha hs) hI₁ hlater
  have hg₁ : w₁.messages[m]? = some { g with fds := g.fds ++ [k], files := g.files ++ [s.file] } := by
    obtain ⟨h', hh', hstep⟩ := Option.bind_eq_some_iff.mp happend
    obtain rfl := Option.some.inj (hh.symm.trans hh')
    obtain ⟨s', hs', -, rfl⟩ := guarded hstep
    obtain rfl := Option.some.inj (hs.symm.trans hs')
    have hget : getfd s = .ok s.fd := by rw [getfd, hopen, if_neg Bool.false_ne_true]
    have htouch := hI.touch (List.mem_of_getElem? hh) hmsg
    simp only [cfunMessageAppend, hget, hmsg, onMessage, htouch,
      appendFd_ok strerror hI hg hseal (List.mem_of_getElem? hs) hopen]
    exact get_replaced hg _
  obtain ⟨g₂, hg₂, hfiles⟩ := run_grows hlater m _ hg₁
  obtain ⟨g₂', hg₂', hf₂⟩ := hI₂.live hh₂ hmsg₂
  obtain rfl := Option.some.inj (hg₂.symm.trans hg₂')
  have hfile : g₂.files[g.files.length]? = some s.file := by
    obtain ⟨rest, hrest⟩ := hfiles
    rw [← hrest]
    simp
  have hlt : g.files.length < g₂.fds.length := by
    rw [hI₂.lengths g₂ (List.mem_of_getElem? hg₂)]
    exact (List.getElem?_eq_some_iff.mp hfile).1
  have hzip : (g₂.fds.zip g₂.files)[g.files.length]? = some (g₂.fds[g.files.length], s.file) :=
    List.getElem?_zip_eq_some.mpr ⟨List.getElem?_eq_getElem hlt, hfile⟩
  rw [hmsg₂, cfunMessageRead, onMessage, hI₂.touch hh₂ hmsg₂, readFdType_ok strerror hI₂ hg₂ hf₂ hzip k₂]

/-- A pipe is put into a message and closed, and a file gets its number; the message is sealed, read,
    and freed. -/
def passingRun : List Step :=
  [.opened .stream 3 ⟨0, 1, none⟩ ⟨false, true, false, false⟩, .create "sd_bus_message_new_signal" 0,
    .append 0 0 (.ok 4), .close 0, .opened .file 3 ⟨1, 2, none⟩ ⟨true, true, false, false⟩, .messageSeal 0 0,
    .read 0 0 (.ok 5), .unref 0]

theorem run_owned_passing : ∃ w, exec (step fun _ => "") initial passingRun = some w ∧ w.fault = false ∧
    w.table 4 = none ∧ w.table 5 = some ⟨0, 1, none⟩ := by
  obtain ⟨w, hrun, h4, h5⟩ : ∃ w, exec (step fun _ => "") initial passingRun = some w ∧ w.table 4 = none ∧
      w.table 5 = some ⟨0, 1, none⟩ := ⟨_, rfl, rfl, rfl⟩
  refine ⟨w, hrun, (run_owned ?_ hrun).1, h4, h5⟩
  intro a ha
  simp only [passingRun, List.mem_cons, List.not_mem_nil, or_false] at ha
  rcases ha with rfl | rfl | rfl | rfl | rfl | rfl | rfl | rfl <;> trivial

/-- The same, up to the reading. -/
theorem run_passes_passing : ∃ w₂ : World, ∃ h₂ ∈ w₂.handles, w₂.table 3 = some ⟨1, 2, none⟩ ∧
    cfunMessageRead (fun _ => "") w₂ h₂.msg 0 (.ok 5) = .returned (addStream w₂ (received 5 ⟨0, 1, none⟩)) := by
  have hcopies : ∀ a ∈ passingRun.take 2 ++ (passingRun.drop 3).take 3, a.copies := by
    intro a ha
    simp only [passingRun, List.take, List.drop, List.cons_append, List.nil_append, List.mem_cons, List.not_mem_nil,
      or_false] at ha
    rcases ha with rfl | rfl | rfl | rfl | rfl <;> trivial
  obtain ⟨w, hrun, hh, hs, hg, w₁, happend, w₂, hlater, hh₂, htable, hsealed⟩ :
      ∃ w, exec (step fun _ => "") initial (passingRun.take 2) = some w ∧
        w.handles[0]? = some ⟨.message 0, .user⟩ ∧
        w.streams[0]? = some ⟨.stream, 3, ⟨0, 1, none⟩, ⟨false, true, false, false⟩, false, .user⟩ ∧
        w.messages[0]? = some (newMessage false 1 0 [] []) ∧
        ∃ w₁, step (fun _ => "") w (.append 0 0 (.ok 4)) = some w₁ ∧
        ∃ w₂, exec (step fun _ => "") w₁ ((passingRun.drop 3).take 3) = some w₂ ∧
          ⟨.message 0, .user⟩ ∈ w₂.handles ∧ w₂.table 3 = some ⟨1, 2, none⟩ ∧ w₂.isSealed 0 = true :=
    ⟨_, rfl, rfl, rfl, rfl, _, rfl, _, rfl, List.mem_singleton_self _, rfl, rfl⟩
  have hread := run_passes hcopies hrun hh hs rfl rfl hg rfl happend hlater hh₂ rfl 5
  rw [if_pos hsealed] at hread
  exact ⟨w₂, _, hh₂, htable, hread⟩

end JanetSdbus.Message.Descriptors
