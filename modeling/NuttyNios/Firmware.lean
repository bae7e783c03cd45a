import NuttyNios.Display
import NuttyNios.Fir
import NuttyNios.Printf
import NuttyNios.Framing
/-!
# The main loop's body: dispatch and sample (main.c:157-177, 256-337)

| here | there |
| --- | --- |
| `Globals`   | the globals of main.c:24-46, 102-114 that the loop body uses |
| `Action`    | a call of `decode_7seg`, a store to a HEX register, a call of `write_leds`, a printed line |
| `dispatch`  | the block `if(message_is_ready)` (:256-311) |
| `sample`    | the block `if(coord_data_ready)` (:314-337), given what the reads in it return |
| `firmware`  | dispatches and samples in any order, from `Globals.boot` |

Each function returns the globals it leaves and the actions it took, in order. `decode` stands for
`decode_7seg`, so that what is shown can be stated for any decoder; the firmware's own is
`decode7seg`.
-/

namespace NuttyNios
open Buffer Loop

def HEX_DELAY : Int := 40

structure Globals where
  filter : Int
  buttons : BitVec 32
  switches : BitVec 32
  leds : BitVec 32
  stopscroll : Int
  filteredCoords : Vector (BitVec 32) 3
  delay : Int
  word : Vector UInt8 25
  displayBuff : Vector UInt8 25
  window : Vector UInt8 6
  coeffs : Coeffs
  firMemFixedX : Vector (BitVec 32) 25
  firMemFixedY : Vector (BitVec 32) 25
  firMemFixedZ : Vector (BitVec 32) 25

/-- The globals when the loop starts: zeroed, and `generate_fixed` has run (main.c:204). -/
def Globals.boot : Globals where
  filter := 0
  buttons := 0
  switches := 0
  leds := 0
  stopscroll := 0
  filteredCoords := Vector.replicate 3 0
  delay := 0
  word := Vector.replicate 25 0
  displayBuff := Vector.replicate 25 0
  window := Vector.replicate 6 0
  coeffs := NuttyNios.coeffs
  firMemFixedX := Vector.replicate 25 0
  firMemFixedY := Vector.replicate 25 0
  firMemFixedZ := Vector.replicate 25 0

inductive Action
  | decode (chr : UInt8)
  | hex (n : Fin 6) (digits : UInt8)
  | leds (v : BitVec 32)
  | print (line : List Char)

/-- `write_leds` (utils.h:15). -/
def writeLeds (leds : BitVec 32) : List Action := [.leds leds]

/-- `write_hex` (utils.h:19). -/
def writeHex (hex : Vector UInt8 6) : List Action :=
  [.hex 0 hex[5], .hex 1 hex[4], .hex 2 hex[3], .hex 3 hex[2], .hex 4 hex[1], .hex 5 hex[0]]

section
variable (decode : UInt8 → UInt8)

/-- `hex[j] = decode_7seg(hex[j])`. -/
def decodeAt (j : Fin 6) : Vector UInt8 6 × List Action → Vector UInt8 6 × List Action
  | (hex, acts) => (hex.set j (decode hex[j]), acts ++ [.decode hex[j]])

/-- The decoding loop (main.c:161-163), and the score's (:274-276), whose source array is not
read again. -/
def decodeAll (hex : Vector UInt8 6) : Vector UInt8 6 × List Action := forUpTo 6 (decodeAt decode) (hex, [])

/-- The refresh in `update_hex` (main.c:159-166). -/
def refreshHex (g : Globals) : Globals × List Action :=
  let window := getWindow g.displayBuff
  let (window, acts) := decodeAll decode window
  ({ g with window, displayBuff := shiftBuffer g.displayBuff, delay := HEX_DELAY }, acts ++ writeHex window)

/-- `update_hex` (main.c:157). -/
def updateHex (g : Globals) : Globals × List Action :=
  let (g, acts) := if g.delay = 0 then refreshHex decode g else (g, [])
  ({ g with delay := g.delay - 1 }, acts)

/-- `update_leds` (main.c:171). -/
def updateLeds (g : Globals) : Globals × List Action :=
  if g.delay = 0 then
    let leds := g.leds ||| ((g.leds &&& 0x1) <<< 10)
    let leds := leds >>> 1
    ({ g with leds }, writeLeds leds)
  else (g, [])

/-! ## Messages -/

/-- `memset(word, 255, 25); memcpy(word, src, 25); setBuffer(word, display_buff);` -/
def loadWord {n : Nat} (src : Vector UInt8 n) (g : Globals) : Except Fault Globals := do
  let word ← memset g.word 255 25
  let word ← memcpy word src 0 25
  let displayBuff ← setBuffer word g.displayBuff
  return { g with word, displayBuff }

/-- `char str[25] = "Easy filter"` -/
def easyFilter : Vector UInt8 25 := #v[69, 97, 115, 121, 32, 102, 105, 108, 116, 101, 114,
  0, 0, 0, 0, 0, 0, 0, 0, 0, 0, 0, 0, 0, 0]

/-- `char str[25] = "Hard filter"` -/
def hardFilter : Vector UInt8 25 := #v[72, 97, 114, 100, 32, 102, 105, 108, 116, 101, 114,
  0, 0, 0, 0, 0, 0, 0, 0, 0, 0, 0, 0, 0, 0]

/-- The score block (main.c:269-279). -/
def showScore (m : Message) (g : Globals) : Except Fault (Globals × List Action) := do
  let scoreUnprocessed : Vector UInt8 6 := Vector.replicate 6 255
  let count := ((m.size - 1 : Int) % 2 ^ 32).toNat      -- as a size_t
  let scoreUnprocessed ← memcpy scoreUnprocessed m.buf 1 count
  let (score, acts) := decodeAll decode scoreUnprocessed
  return ({ g with stopscroll := 1 }, acts ++ writeHex score)

/-- The dispatch block (main.c:258-309). -/
def dispatch (m : Message) (g : Globals) : Except Fault (Globals × List Action) :=
  if m.buf[0] = 49 then               -- '1'
    .ok ({ g with leds := 0b1111111111 }, [])
  else if m.buf[0] = 48 then          -- '0'
    .ok ({ g with leds := 0 }, [])
  else if m.buf[0] = 126 then         -- '~'
    showScore decode m g
  else if m.buf[0] = 45 then do       -- '-'
    let g ← loadWord easyFilter g
    return ({ g with filter := 0, leds := 0, stopscroll := 0 }, [])
  else if m.buf[0] = 43 then do       -- '+'
    let g ← loadWord hardFilter g
    return ({ g with filter := 1, leds := 0b1111111111, stopscroll := 0 }, [])
  else do
    let g ← loadWord m.buf g
    return ({ g with stopscroll := 0 }, [])

/-! ## Samples -/

/-- What a pass through the sample block reads: the three coordinates at the three filter calls,
and the two input ports. -/
structure Sample where
  x : BitVec 32
  y : BitVec 32
  z : BitVec 32
  buttons : BitVec 32
  switches : BitVec 32

def filterX (data : BitVec 32) (g : Globals) : Globals :=
  let (memory, average) := firFilterFixed g.coeffs g.filter g.firMemFixedX data
  { g with firMemFixedX := memory, filteredCoords := g.filteredCoords.set 0 average }

def filterY (data : BitVec 32) (g : Globals) : Globals :=
  let (memory, average) := firFilterFixed g.coeffs g.filter g.firMemFixedY data
  { g with firMemFixedY := memory, filteredCoords := g.filteredCoords.set 1 average }

def filterZ (data : BitVec 32) (g : Globals) : Globals :=
  let (memory, average) := firFilterFixed g.coeffs g.filter g.firMemFixedZ data
  { g with firMemFixedZ := memory, filteredCoords := g.filteredCoords.set 2 average }

/-- `"%x,%x,%x,%x,%x\n"` -/
def telemetryFormat : List Char := ['%', 'x', ',', '%', 'x', ',', '%', 'x', ',', '%', 'x', ',', '%', 'x', '\n']

/-- The `alt_printf` of main.c:325. -/
def printSample (g : Globals) : Except Fault (List Char) :=
  altPrintf telemetryFormat [.word g.filteredCoords[0], .word g.filteredCoords[1], .word g.filteredCoords[2],
    .word g.buttons, .word g.switches]

/-- `if(!stopscroll) update_hex();` -/
def scrollHex (g : Globals) : Globals × List Action := if g.stopscroll = 0 then updateHex decode g else (g, [])

/-- The sample block (main.c:316-334). -/
def sample (s : Sample) (g : Globals) : Except Fault (Globals × List Action) := do
  let g := filterX s.x g
  let g := filterY s.y g
  let g := filterZ s.z g
  let g := { g with buttons := s.buttons }
  let g := { g with switches := s.switches }
  let line ← printSample g
  let (g, hex) := scrollHex decode g
  let (g, leds) := updateLeds g
  return (g, .print line :: (hex ++ leds))

/-! ## Runs -/

/-- A message as the receive loop hands it over: a NUL follows the text. -/
structure Delivered extends Message where
  size_lt : size < 1024
  terminated : buf[size] = 0

/-- One block of the loop body that has something to do. -/
inductive Event
  | message (m : Delivered)
  | sample (s : Sample)

def step (g : Globals) : Event → Except Fault (Globals × List Action)
  | .message m => dispatch decode m.toMessage g
  | .sample s => sample decode s g

/-- Dispatches and samples, in any order. -/
def firmware : Machine Globals Event (List Action) Fault := ⟨step decode⟩

end

theorem Delivers.delivered {m : Message} {seg : List UInt8} (h : Delivers (some m) (some seg)) :
    ∃ d : Delivered, d.toMessage = m ∧ d.text = seg := by
  have htext := h.text
  obtain ⟨hs, ht⟩ := h
  have hlen := congrArg List.length ht
  simp only [List.length_take, Vector.length_toList, List.length_append, List.length_singleton] at hlen
  have hlt : m.size < 1024 := by omega
  have hnul : (m.buf.toList.take (m.size + 1))[m.size]? = some 0 := by rw [ht, hs]; simp
  rw [List.getElem?_take_of_lt (Nat.lt_succ_self _), List.getElem?_eq_getElem (by simpa using hlt)] at hnul
  exact ⟨⟨m, hlt, by simpa using hnul⟩, rfl, htext⟩

theorem Delivered.text_cases (m : Delivered) : (m.text = [] ∧ m.buf[0] = 0) ∨
    (0 < m.size ∧ m.text = m.buf[0] :: (m.buf.toList.drop 1).take (m.size - 1)) := by
  cases hs : m.size with
  | zero => exact .inl ⟨by simp [Message.text, hs], by simpa [hs] using m.terminated⟩
  | succ n =>
    have h0 := List.getElem_cons_drop (show 0 < m.buf.toList.length by simp)
    rw [List.drop_zero, Vector.getElem_toList] at h0
    refine .inr ⟨Nat.succ_pos n, ?_⟩
    calc m.text = m.buf.toList.take (n + 1) := by rw [Message.text, hs]
      _ = (m.buf[0] :: m.buf.toList.drop 1).take (n + 1) := by rw [h0]
      _ = m.buf[0] :: (m.buf.toList.drop 1).take n := List.take_succ_cons

/-! ## What the decoding loop does -/

theorem decodeAll_eq (decode : UInt8 → UInt8) (hex : Vector UInt8 6) :
    decodeAll decode hex = (hex.map decode, hex.toList.map .decode) := by
  let Inv (k : Nat) (p : Vector UInt8 6 × List Action) : Prop :=
    (∀ i : Fin 6, p.1[i] = if i.val < k then decode hex[i] else hex[i]) ∧ p.2 = (hex.toList.take k).map .decode
  have h0 : Inv 0 (hex, []) := ⟨fun i => by simp, by simp⟩
  have hstep : ∀ (j : Fin 6) p, Inv j p → Inv (j + 1) (decodeAt decode j p) := by
    rintro j ⟨v, acts⟩ ⟨hv, (ha : acts = _)⟩
    have hj : v[j] = hex[j] := by simpa using hv j
    refine ⟨fun i => ?_, ?_⟩
    · show (v.set j (decode v[j]))[i.val] = _
      by_cases he : j.val = i.val
      · obtain rfl : j = i := Fin.ext he
        rw [Vector.getElem_set_self, if_pos (Nat.lt_succ_self _), hj]
      · rw [Vector.getElem_set_ne _ _ he]
        refine (hv i).trans ?_
        split <;> split <;> first | rfl | omega
    · have hlen : j.val < hex.toList.length := by simp
      show acts ++ [.decode v[j]] = _
      rw [ha, hj, List.take_add_one, List.getElem?_eq_getElem hlen, List.map_append]
      rfl
  obtain ⟨hv, ha⟩ := forUpTo_inv Inv h0 hstep
  refine Prod.ext ?_ ?_
  · apply Vector.ext
    intro i hi
    rw [Vector.getElem_map]
    exact (hv ⟨i, hi⟩).trans (if_pos hi)
  · rw [decodeAll, ha, List.take_of_length_le (by simp)]

/-! ## What a sample prints -/

/-- Five hexadecimal numbers, comma-separated, and a newline. -/
def telemetry (a b c d e : BitVec 32) : List Char :=
  hexString a ++ ',' :: (hexString b ++ ',' :: (hexString c ++ ',' :: (hexString d ++ ',' :: (hexString e ++ ['\n']))))

theorem altPrintf_telemetry (a b c d e : BitVec 32) :
    altPrintf telemetryFormat [.word a, .word b, .word c, .word d, .word e] = .ok (telemetry a b c d e) := by
  simp [telemetryFormat, altPrintf, printHex_eq, telemetry, bind, Except.bind, pure, Except.pure]

theorem printSample_eq (g : Globals) : printSample g = .ok (telemetry g.filteredCoords[0] g.filteredCoords[1]
    g.filteredCoords[2] g.buttons g.switches) := altPrintf_telemetry ..

/-- The globals when `update_hex` is reached. -/
def sampled (s : Sample) (g : Globals) : Globals :=
  { filterZ s.z (filterY s.y (filterX s.x g)) with buttons := s.buttons, switches := s.switches }

theorem sample_eq (decode : UInt8 → UInt8) (s : Sample) (g : Globals) :
    sample decode s g = .ok ((updateLeds (scrollHex decode (sampled s g)).1).1,
      .print (telemetry (sampled s g).filteredCoords[0] (sampled s g).filteredCoords[1]
        (sampled s g).filteredCoords[2] s.buttons s.switches) ::
      ((scrollHex decode (sampled s g)).2 ++ (updateLeds (scrollHex decode (sampled s g)).1).2)) := by
  simp only [sample, printSample_eq, bind, Except.bind]
  rfl

end NuttyNios
