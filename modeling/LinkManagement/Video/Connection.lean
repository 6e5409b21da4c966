import LinkManagement.Lib.CyclicArray
import Mathlib.Data.List.Range

/-!
# Datagrams and addresses

`VideoServer/src/connection.c`: what `recvfrom` leaves in the caller's address and array, the address
comparison, the packets of one byte, and the test of an option's bit.  The array a caller passes has
`MAX_PACKET_SIZE` bytes and is not cleared; a datagram overwrites as many of its first bytes as it is
long.
-/

namespace LinkManagement.Connection

open LinkManagement.CyclicArray

/-- `MAX_PACKET_SIZE`. -/
def maxPacketSize : ℕ := 2000

/-- The fields of `struct sockaddr_in` that `addrMatch` compares. -/
structure Addr where
  sAddr : UInt32
  sinPort : UInt16
  deriving DecidableEq

def addrMatch (addr1 addr2 : Addr) : Bool :=
  addr1.sAddr == addr2.sAddr && addr1.sinPort == addr2.sinPort

@[simp] theorem addrMatch_iff {a b : Addr} : addrMatch a b = true ↔ a = b := by
  obtain ⟨a, p⟩ := a
  obtain ⟨b, q⟩ := b
  simp [addrMatch]

/-- The values of `enum packet_types` that a program sends or tests. -/
inductive PacketType where
  | init
  | initAck
  | terminate
  deriving DecidableEq

def PacketType.code : PacketType → UInt8
  | .init => 49
  | .initAck => 50
  | .terminate => 51

/-- The function of the source a datagram was sent with; no receiver sees it. -/
inductive SentBy where
  | sendPacketType
  | sendVideoPacket
  deriving DecidableEq

structure Datagram where
  src : Addr
  dst : Addr
  data : List UInt8
  sentBy : SentBy
  deriving DecidableEq

/-- `send_packet_type`, from the socket bound to `src`. -/
def sendPacketType (src dst : Addr) (type : PacketType) : Datagram :=
  ⟨src, dst, [type.code], .sendPacketType⟩

/-! ### Receiving -/

/-- An array on the stack, before anything is stored in it. -/
def uninitialised (mem : ℕ → UInt8) : List UInt8 := (List.range maxPacketSize).map mem

@[simp] theorem length_uninitialised (mem : ℕ → UInt8) :
    (uninitialised mem).length = maxPacketSize := by
  simp [uninitialised]

theorem uninitialised_head? (mem : ℕ → UInt8) : (uninitialised mem).head? = some (mem 0) := by
  rw [uninitialised, List.head?_map, List.head?_range, if_neg (by decide), Option.map_some]

/-- `recv_data`: the returned length and the array after it. -/
def recvData (payload data : List UInt8) : ℕ × List UInt8 :=
  ((payload.take maxPacketSize).length, overwrite data 0 (payload.take maxPacketSize))

/-- What `poll` and `recvfrom` can do to `recv_data_timeout`. -/
inductive Received where
  | timedOut
  | pollFailed
  | recvFailed
  | datagram (src : Addr) (payload : List UInt8)
  deriving DecidableEq

def Received.Silent : Received → Prop
  | .datagram _ _ => False
  | .timedOut | .pollFailed | .recvFailed => True

/-- `recv_data_timeout`: the returned length, and the address and the array after it. -/
def recvDataTimeout (r : Received) (src : Addr) (data : List UInt8) : ℤ × Addr × List UInt8 :=
  match r with
  | .datagram sender payload => ((recvData payload data).1, sender, (recvData payload data).2)
  | .timedOut | .pollFailed | .recvFailed => (-1, src, data)

theorem recvData_head? (payload data : List UInt8) :
    (recvData payload data).2.head? = payload.head?.or data.head? := by
  cases payload with
  | nil => simp [recvData, overwrite]
  | cons c cs => simp [recvData, overwrite, maxPacketSize]

/-! ### Options -/

/-- `is_option_set`, on the bits of two `int`s. -/
def isOptionSet (value option : BitVec 32) : Bool := (value &&& option) == option

end LinkManagement.Connection
