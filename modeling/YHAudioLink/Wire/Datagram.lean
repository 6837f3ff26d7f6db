import YHAudioLink.Wire.WavHeader

/-!
# Datagrams, addresses and the two classifiers

What the board's tasks see of the network, and the two places where a received payload is told
apart from audio: `parse_AT` in `task_udpserver.c`, which reads the first three bytes of the buffer,
and the header test in `task_play.c`. Both look at a payload prefix; there is no framing.
-/

namespace YHAudioLink

/-! ### Addresses -/

/-- `htons`, the byte swap of a little-endian machine. -/
def htons (x : UInt16) : UInt16 :=
  UInt16.ofNat (x.toNat % 256 * 256 + x.toNat / 256)

/-- `ntohs`, the same byte swap. -/
def ntohs (x : UInt16) : UInt16 := htons x

theorem toNat_htons (x : UInt16) :
    (htons x).toNat = x.toNat % 256 * 256 + x.toNat / 256 := by
  have hx : x.toNat < 65536 := x.toNat_lt
  rw [htons, UInt16.toNat_ofNat_of_lt']
  simp only [UInt16.size]
  omega

/-- Swapping the bytes twice changes nothing. -/
theorem ntohs_htons (x : UInt16) : ntohs (htons x) = x := by
  have hx : x.toNat < 65536 := x.toNat_lt
  apply UInt16.toNat_inj.1
  rw [ntohs, toNat_htons, toNat_htons]
  omega

/-- The fields of `struct sockaddr_in` the tasks use; `sin_port` is in network byte order. -/
structure SockAddrIn where
  sin_addr : UInt32
  sin_port : UInt16
  deriving DecidableEq, Repr

/-- A host and a UDP port, as they appear in a datagram. -/
structure Endpoint where
  ip : UInt32
  port : UInt16
  deriving DecidableEq, Repr

/-- The address `lwip_recvfrom` stores for a datagram from `e`. -/
def Endpoint.toSockAddr (e : Endpoint) : SockAddrIn :=
  { sin_addr := e.ip, sin_port := htons e.port }

/-- The endpoint `lwip_sendto` sends to for a given address. -/
def SockAddrIn.endpoint (a : SockAddrIn) : Endpoint :=
  { ip := a.sin_addr, port := ntohs a.sin_port }

@[simp] theorem Endpoint.endpoint_toSockAddr (e : Endpoint) : e.toSockAddr.endpoint = e := by
  simp [Endpoint.toSockAddr, SockAddrIn.endpoint, ntohs_htons]

/-! ### What `recvfrom` returns -/

/-- `RCV_BUFFER_SIZE`. -/
abbrev rcvBufferSize : ℕ := 2048

/-- One return of `recvfrom`: `-1`, `0` for a closed connection, or a datagram. The first two write
neither the buffer nor the address. -/
inductive RecvFrom
  | error
  | closed
  | datagram (src : Endpoint) (payload : List UInt8)
  deriving DecidableEq, Repr

/-- The part of a payload `lwip_recvfrom` copies; the rest of a longer datagram is dropped. -/
def received (payload : List UInt8) : List UInt8 := payload.take rcvBufferSize

/-- The value `recvfrom` returns. -/
def RecvFrom.ret : RecvFrom → ℤ
  | .error => -1
  | .closed => 0
  | .datagram _ payload => (received payload).length

/-! ### The two classifiers -/

/-- `AT_LINE_EATABLISH`. -/
def atLineEatablish : UInt8 := 0x31

/-- `AT_LINE_SHUTDOWN`. -/
def atLineShutdown : UInt8 := 0x32

/-- The first test of `parse_AT`: the buffer starts with the bytes `A`, `T`. -/
def isAT (buffer : ℕ → UInt8) : Bool :=
  buffer 0 == 0x41 && buffer 1 == 0x54

/-- `parse_AT`: the returned flag and the new value of `is_line_established`. An unknown command
byte is still an AT datagram and leaves the line as it is. -/
def parseAT (buffer : ℕ → UInt8) (line : Bool) : Bool × Bool :=
  if isAT buffer then
    (true,
      if buffer 2 = atLineEatablish then true
      else if buffer 2 = atLineShutdown then false
      else line)
  else (false, line)

/-- The header test of `play()`. The source compares `data[2]` twice, so the fourth byte is never
looked at. -/
def isWavHeader (data : ℕ → UInt8) : Bool :=
  data 0 == 0x52 && data 1 == 0x49 && data 2 == 0x46 && data 2 == 0x46

@[simp] theorem parseAT_fst (buffer : ℕ → UInt8) (line : Bool) :
    (parseAT buffer line).1 = isAT buffer := by
  unfold parseAT
  split <;> simp_all

/-- **A command is a three-byte prefix**: what `parse_AT` does depends on nothing else of the
buffer. -/
theorem parseAT_congr {b b' : ℕ → UInt8} (h : ∀ i, i < 3 → b i = b' i) (line : Bool) :
    parseAT b line = parseAT b' line := by
  simp [parseAT, isAT, h 0 (by omega), h 1 (by omega), h 2 (by omega)]

/-- A payload that is itself a command: its own first two bytes are `A`, `T`. -/
def isCommand (payload : List UInt8) : Bool :=
  payload.take 2 == [0x41, 0x54]

/-- A payload that is itself the establish command `AT1`. -/
def isEstablish (payload : List UInt8) : Bool :=
  payload.take 3 == [0x41, 0x54, atLineEatablish]

end YHAudioLink
