import Mathlib.Data.List.ReduceOption
import Xv6Gui.Mouse.HitTest

/-!
# The framing of packets

A packet of the mouse has three bytes: a header with bit 3 set, and the displacements in x and
in y, whose signs are in the header.  `mouseint` gets one byte at a time and keeps in `to_read`
which one is next.

A header with the middle button is rejected, and `to_read` stays as it is.  The next byte, a
displacement, is then tested as a header.  If it has bit 3 set and bit 2 clear it is taken as
one, and from there on the packets are cut in the wrong places.
-/

namespace Xv6Gui

open Runs
open Option (map_eq_some_iff)

/-! ## The decoder -/

/-- What `updateMouseEvent` is called with: the buttons and the displacement. -/
structure Report where
  left : Bool
  right : Bool
  dx : Int
  dy : Int
deriving DecidableEq

/-- A byte that `mouseint` takes as a header. -/
def IsHeader (ch : UInt8) : Prop := ch &&& 0x08 ≠ 0 ∧ ch &&& 0x04 = 0
  deriving Decidable

/-- The variables of `mouse.c` that a packet is put together in. -/
structure Decoder where
  toRead : ToRead
  leftDown : Bool
  rightDown : Bool
  xSign : Bool
  ySign : Bool
  disX : Int

namespace Decoder

/-- A byte is read. -/
def read (d : Decoder) (ch : UInt8) : Decoder :=
  match d.toRead with
  | .mouseInfo =>
    if IsHeader ch then
      { d with
        leftDown := ch &&& 0x01 ≠ 0, rightDown := ch &&& 0x02 ≠ 0,
        xSign := ch &&& 0x10 ≠ 0, ySign := ch &&& 0x20 ≠ 0, toRead := .xMovement }
    else
      d
  | .xMovement => { d with disX := Mouse.movement ch d.xSign, toRead := .yMovement }
  | .yMovement => { d with toRead := .mouseInfo }

/-- The call of `updateMouseEvent` that a byte leads to. -/
def report (d : Decoder) (ch : UInt8) : Option Report :=
  if d.toRead = .yMovement then
    some ⟨d.leftDown, d.rightDown, d.disX, -Mouse.movement ch d.ySign⟩
  else
    none

/-- The byte is taken as a header. -/
def takes (d : Decoder) (ch : UInt8) : Bool := d.toRead = .mouseInfo ∧ IsHeader ch

end Decoder

namespace Mouse

variable {s t : Mouse}

/-- The decoder in the state. -/
def decoder (s : Mouse) : Decoder :=
  ⟨s.toRead, s.leftDown, s.rightDown, s.xSign, s.ySign, s.disX⟩

/-- The start of a drag sets the state of the drag and may redraw. -/
theorem startDrag_frame (h : s.startDrag = some t) :
    t = { s with gui := t.gui, counter := t.counter, dragState := t.dragState, pwque := t.pwque } := by
  simp only [startDrag, Runs.bind_some] at h
  obtain ⟨⟨g, hit⟩, -, h⟩ := h
  cases hit with
  | none =>
    cases h
    rfl
  | some q =>
    dsimp only at h
    split at h
    · obtain ⟨g', -, h⟩ := Runs.bind_some.mp h
      cases h
      rfl
    · cases h
      rfl

/-- The handlers leave the variables of the decoder and of the buttons alone. -/
theorem dispatch_frame {event : Int} (h : s.dispatch event = some t) :
    t = { s with gui := t.gui, counter := t.counter, dragState := t.dragState, pwque := t.pwque } := by
  cases dispatch_cases h with
  | drag drags =>
    cases drags with
    | start _ dragged => rw [startDrag_frame dragged]
    | move | idle => rfl
  | left | double | right | settle | release | other => rfl

/-- They leave the noted event and the current process alone, too. -/
theorem dispatch_noted {event : Int} (h : s.dispatch event = some t) :
    t.gui.mouseInfo.event = s.gui.mouseInfo.event ∧ t.gui.proc = s.gui.proc := by
  cases dispatch_cases h with
  | left clicked =>
    have framed := (Gui.handleLeftClick_framed clicked).1
    exact ⟨framed.event, framed.proc⟩
  | double clicked =>
    have kept := Gui.handleLeftDoubleClick_kept clicked
    exact ⟨kept.event, kept.proc⟩
  | drag drags back =>
    have back := Gui.switchBack_kept back
    rw [back.event, back.proc]
    cases drags with
    | start _ dragged =>
      have framed := (startDrag_framed dragged).1
      exact ⟨framed.event, framed.proc⟩
    | move _ _ switched moved =>
      have switched := Gui.switchuvm_kept switched
      obtain ⟨p, -, kept⟩ := Gui.moveWindow_kept moved
      exact ⟨kept.event.trans switched.event, kept.proc.trans switched.proc⟩
    | idle => exact ⟨rfl, rfl⟩
  | right clicked =>
    have kept := Gui.handleRightClick_kept clicked
    exact ⟨kept.event, kept.proc⟩
  | settle _ settled =>
    have kept := Gui.updateLastWindow_kept settled
    exact ⟨kept.event, kept.proc⟩
  | release | other => exact ⟨rfl, rfl⟩

theorem decodeEvent_decoder (s : Mouse) (tick : UInt32) (x y : Int) :
    (s.decodeEvent tick x y).1.decoder = s.decoder := by
  obtain ⟨l, px, py, r, last, frame⟩ := s.decodeEvent_frame tick x y
  rw [frame]
  rfl

/-- What a byte does: it completes a packet, for which `updateMouseEvent` is called and the
pointer moved, or it is put by. -/
theorem mouseint_eq (s : Mouse) (tick : UInt32) {status : UInt8} (ready : status &&& 0x01 ≠ 0)
    (ch : UInt8) : s.mouseint tick status ch =
      match s.decoder.report ch with
      | some r =>
        ((s.readY ch).updateMouseEvent tick (s.gui.mouseInfo.xPosition + r.dx)
          (s.gui.mouseInfo.yPosition + r.dy)).map fun t =>
            { t with gui := t.gui.moveMousePosition t.disX t.disY }
      | none =>
        let d := s.decoder.read ch
        some { s with
          toRead := d.toRead, leftDown := d.leftDown, rightDown := d.rightDown,
          xSign := d.xSign, ySign := d.ySign, disX := d.disX } := by
  rw [mouseint, if_neg ready]
  cases toRead : s.toRead with
  | mouseInfo =>
    have report : s.decoder.report ch = none := by simp [Decoder.report, decoder, toRead]
    rw [report]
    simp only [Decoder.read, decoder, toRead, IsHeader]
    by_cases reject : ch &&& 0x08 = 0 ∨ ch &&& 0x04 ≠ 0
    · have no : ¬ (ch &&& 0x08 ≠ 0 ∧ ch &&& 0x04 = 0) := by
        rintro ⟨first, second⟩
        exact reject.elim first fun ne => ne second
      rw [if_pos reject, if_neg no]
      exact congrArg some (by rw [← toRead])
    · have yes : ch &&& 0x08 ≠ 0 ∧ ch &&& 0x04 = 0 := by
        simpa [not_or] using reject
      rw [if_neg reject, if_pos yes]
  | xMovement =>
    have report : s.decoder.report ch = none := by simp [Decoder.report, decoder, toRead]
    rw [report]
    simp only [Decoder.read, decoder, toRead]
  | yMovement =>
    have report : s.decoder.report ch =
        some ⟨s.leftDown, s.rightDown, s.disX, -movement ch s.ySign⟩ := by
      simp [Decoder.report, decoder, toRead]
    simp only [report]
    rw [Option.map_eq_bind]
    rfl

/-- The byte completes a packet. -/
def Completes (s : Mouse) (status : UInt8) : Prop := status &&& 0x01 ≠ 0 ∧ s.toRead = .yMovement
  deriving Decidable

/-- A byte that completes a packet is handled, and the others only change the decoder. -/
theorem mouseint_packet (s : Mouse) (tick : UInt32) (status ch : UInt8) :
    (¬ s.Completes status ∧
      ∃ toRead left right xSign ySign disX, s.mouseint tick status ch =
        some { s with
          toRead := toRead, leftDown := left, rightDown := right, xSign := xSign, ySign := ySign
          disX := disX }) ∨
    (s.Completes status ∧ s.mouseint tick status ch =
      ((s.packetEvent tick ch).1.dispatch (s.packetEvent tick ch).2).map fun t =>
        { t with gui := t.gui.moveMousePosition t.disX t.disY }) := by
  by_cases ready : status &&& 0x01 = 0
  · refine .inl ⟨fun h => h.1 ready, .mouseInfo, s.leftDown, s.rightDown, s.xSign, s.ySign, s.disX, ?_⟩
    rw [mouseint, if_pos ready]
  · by_cases third : s.toRead = .yMovement
    · refine .inr ⟨⟨ready, third⟩, ?_⟩
      rw [mouseint, if_neg ready, third, Option.map_eq_bind]
      rfl
    · refine .inl ⟨fun h => third h.2, ?_⟩
      have report : s.decoder.report ch = none := by simp [Decoder.report, decoder, third]
      rw [mouseint_eq s tick ready, report]
      exact ⟨_, _, _, _, _, _, rfl⟩

/-- A byte moves the decoder on. -/
theorem mouseint_decoder {tick : UInt32} {status ch : UInt8} (ready : status &&& 0x01 ≠ 0)
    (h : s.mouseint tick status ch = some t) : t.decoder = s.decoder.read ch := by
  rw [mouseint_eq s tick ready] at h
  split at h
  · rename_i r report
    have third : s.toRead = .yMovement := by
      rw [Decoder.report] at report
      split at report
      · assumption
      · cases report
    obtain ⟨u, handled, rfl⟩ := map_eq_some_iff.mp h
    have same : u.decoder = ((s.readY ch).decodeEvent tick (s.gui.mouseInfo.xPosition + r.dx)
        (s.gui.mouseInfo.yPosition + r.dy)).1.decoder := by
      rw [dispatch_frame handled]
      rfl
    show u.decoder = _
    rw [same, decodeEvent_decoder, Decoder.read]
    simp only [decoder, third]
    rfl
  · cases h
    rfl

/-! ## Other events -/

/-- Something other than a byte of the mouse happens, any number of times. -/
def Idle (s t : Mouse) : Prop :=
  ∃ es, Steps DeskStep s es t ∧ ∀ e ∈ es, ∀ tick status ch, e ≠ .mouseint tick status ch

theorem Idle.decoder (h : s.Idle t) : t.decoder = s.decoder := by
  obtain ⟨es, run, others⟩ := h
  induction run with
  | nil => rfl
  | snoc run step ih =>
    rename_i as u v e
    have ih := ih fun e he => others e (List.mem_append_left _ he)
    have other := others e (by simp)
    rw [← ih]
    obtain ⟨-, step⟩ := step
    cases e with
    | mouseint tick status ch => exact absurd rfl (other tick status ch)
    | createWindow arg | deleteWindow arg =>
      obtain ⟨r, -, rfl⟩ := map_eq_some_iff.mp step
      rfl
    | reorderQueue q =>
      obtain ⟨g, -, rfl⟩ := map_eq_some_iff.mp step
      rfl
    | schedule p | user window icon =>
      cases step
      rfl

end Mouse

/-! ## Packets -/

/-- The bytes of a packet. -/
structure MousePacket where
  header : UInt8
  x : UInt8
  y : UInt8
  first : header &&& 0x08 ≠ 0

/-- A number of nine bits. -/
def nineBits (sign : Bool) (ch : UInt8) : Int := (BitVec.cons sign ch.toBitVec).toInt

namespace MousePacket

/-- What a packet says. -/
def report (p : MousePacket) : Report :=
  ⟨p.header &&& 0x01 ≠ 0, p.header &&& 0x02 ≠ 0, nineBits (p.header &&& 0x10 ≠ 0) p.x,
    -nineBits (p.header &&& 0x20 ≠ 0) p.y⟩

/-- The middle button is down. -/
def Middle (p : MousePacket) : Prop := p.header &&& 0x04 ≠ 0
  deriving Decidable

/-- With the middle button, neither displacement looks like a header. -/
def Clear (p : MousePacket) : Prop := p.Middle → ¬ IsHeader p.x ∧ ¬ IsHeader p.y
  deriving Decidable

end MousePacket

/-- What happens while a packet arrives: the calls of `updateMouseEvent`, whether a displacement
is taken as a header, and what is to be read behind the packet. -/
structure PacketOutcome where
  reports : List Report
  mistaken : Bool
  toRead : ToRead
deriving DecidableEq

/-- The packet has one report, with its buttons and its displacement, or is ignored, and the
next packet is read from its start. -/
def PacketOutcome.Framed (o : PacketOutcome) (p : MousePacket) : Prop :=
  o.toRead = .mouseInfo ∧ (o.reports = [p.report] ∨ o.reports = []) ∧ o.mistaken = false

/-- The three bytes of a packet are read. -/
def Decoder.outcome (d : Decoder) (p : MousePacket) : PacketOutcome :=
  let d₁ := d.read p.header
  let d₂ := d₁.read p.x
  ⟨[d.report p.header, d₁.report p.x, d₂.report p.y].reduceOption,
    d₁.takes p.x || d₂.takes p.y, (d₂.read p.y).toRead⟩

theorem movement_eq (ch : UInt8) (sign : Bool) : Mouse.movement ch sign = nineBits sign ch := by
  have lt := ch.toNat_lt
  rw [nineBits, BitVec.toInt_eq_toNat_cond, BitVec.toNat_cons', Mouse.movement]
  cases sign <;> simp <;> omega

section

variable {d : Decoder} (start : d.toRead = .mouseInfo) (p : MousePacket)

include start

/-- A packet without the middle button. -/
theorem Decoder.outcome_of_header (h : ¬ p.Middle) :
    d.outcome p = ⟨[p.report], false, .mouseInfo⟩ := by
  have header : IsHeader p.header := ⟨p.first, not_not.mp h⟩
  simp [outcome, read, report, takes, start, header, MousePacket.report, movement_eq]

/-- The header is rejected, and so are the displacements. -/
theorem Decoder.outcome_of_middle (h : p.Middle) (clear : ¬ IsHeader p.x ∧ ¬ IsHeader p.y) :
    d.outcome p = ⟨[], false, .mouseInfo⟩ := by
  have header : ¬ IsHeader p.header := fun header => h header.2
  simp [outcome, read, report, takes, start, header, clear.1, clear.2]

/-- A displacement is taken as a header. -/
theorem Decoder.outcome_of_mistake (h : p.Middle) (mistake : IsHeader p.x ∨ IsHeader p.y) :
    (d.outcome p).mistaken = true ∧ (d.outcome p).toRead ≠ .mouseInfo := by
  have header : ¬ IsHeader p.header := fun header => h header.2
  by_cases x : IsHeader p.x
  · simp [outcome, read, takes, start, header, x]
  · have y := mistake.resolve_left x
    simp [outcome, read, takes, start, header, x, y]

/-- A packet that starts where it should is framed if the middle button does no harm. -/
theorem Decoder.framed_iff : (d.outcome p).Framed p ↔ p.Clear := by
  by_cases middle : p.Middle
  · by_cases clear : ¬ IsHeader p.x ∧ ¬ IsHeader p.y
    · rw [outcome_of_middle start p middle clear]
      exact ⟨fun _ _ => clear, fun _ => ⟨rfl, .inr rfl, rfl⟩⟩
    · have mistake := outcome_of_mistake start p middle (by tauto)
      exact ⟨fun framed => absurd framed.1 mistake.2, fun h => absurd (h middle) clear⟩
  · rw [outcome_of_header start p middle]
    exact ⟨fun _ h => absurd h middle, fun _ => ⟨rfl, .inl rfl, rfl⟩⟩

end

/-! ## Streams of packets -/

namespace Mouse

variable {s t : Mouse}

/-- A byte of the mouse arrives, after whatever happens before it.  It leads to the report `r`,
and is taken as a header or not. -/
def ByteStep (s : Mouse) (ch : UInt8) (r : Option Report) (header : Bool) (t : Mouse) : Prop :=
  ∃ u tick status, s.Idle u ∧ status &&& 0x01 ≠ 0 ∧ u.mouseint tick status ch = some t ∧
    r = u.decoder.report ch ∧ header = u.decoder.takes ch

/-- A packet is handled. -/
def PacketStep (s : Mouse) (l : MousePacket × PacketOutcome) (t : Mouse) : Prop :=
  ∃ u v r₁ r₂ r₃ h₁ h₂ h₃, s.ByteStep l.1.header r₁ h₁ u ∧ u.ByteStep l.1.x r₂ h₂ v ∧
    v.ByteStep l.1.y r₃ h₃ t ∧ l.2 = ⟨[r₁, r₂, r₃].reduceOption, h₂ || h₃, t.toRead⟩

theorem ByteStep.decoder {ch : UInt8} {r : Option Report} {header : Bool}
    (h : s.ByteStep ch r header t) :
    r = s.decoder.report ch ∧ header = s.decoder.takes ch ∧ t.decoder = s.decoder.read ch := by
  obtain ⟨u, tick, status, idle, ready, run, rfl, rfl⟩ := h
  rw [← idle.decoder]
  exact ⟨rfl, rfl, mouseint_decoder ready run⟩

theorem PacketStep.outcome {l : MousePacket × PacketOutcome} (h : s.PacketStep l t) :
    l.2 = s.decoder.outcome l.1 ∧ t.toRead = (s.decoder.outcome l.1).toRead := by
  obtain ⟨u, v, r₁, r₂, r₃, h₁, h₂, h₃, first, second, third, e⟩ := h
  obtain ⟨rfl, -, hu⟩ := first.decoder
  obtain ⟨rfl, rfl, hv⟩ := second.decoder
  obtain ⟨rfl, rfl, ht⟩ := third.decoder
  have toRead : t.toRead = (s.decoder.outcome l.1).toRead := by
    rw [Decoder.outcome, ← hu, ← hv, ← ht]
    rfl
  refine ⟨?_, toRead⟩
  rw [e, toRead, Decoder.outcome, ← hu, ← hv]

end Mouse

/-- In a stream of packets, each packet has one report with its buttons and its displacement or
is ignored as a whole, and no displacement is taken as a header, if and only if no displacement
of a packet with the middle button looks like a header.  A report of a byte is the call of
`updateMouseEvent` in `mouseint`. -/
theorem packets_framed_iff {s₀ s : Mouse} {labels : List (MousePacket × PacketOutcome)}
    (start : s₀.toRead = .mouseInfo) (run : Steps Mouse.PacketStep s₀ labels s) :
    ((∀ l ∈ labels, l.2.Framed l.1) ↔ ∀ l ∈ labels, l.1.Clear) ∧
      ∀ (s : Mouse) (tick : UInt32) (status ch : UInt8), status &&& 0x01 ≠ 0 →
        s.mouseint tick status ch =
          match s.decoder.report ch with
          | some r =>
            ((s.readY ch).updateMouseEvent tick (s.gui.mouseInfo.xPosition + r.dx)
              (s.gui.mouseInfo.yPosition + r.dy)).map fun t =>
                { t with gui := t.gui.moveMousePosition t.disX t.disY }
          | none =>
            let d := s.decoder.read ch
            some { s with
              toRead := d.toRead, leftDown := d.leftDown, rightDown := d.rightDown,
              xSign := d.xSign, ySign := d.ySign, disX := d.disX } := by
  refine ⟨?_, fun s tick status ch ready => s.mouseint_eq tick ready ch⟩
  -- while all packets so far are framed, the next one starts at its header
  have boundary : ((∀ l ∈ labels, l.2.Framed l.1) ↔ ∀ l ∈ labels, l.1.Clear) ∧
      ((∀ l ∈ labels, l.2.Framed l.1) → s.toRead = .mouseInfo) := by
    induction run with
    | nil => exact ⟨by simp, fun _ => start⟩
    | snoc run step ih =>
      rename_i as u v l
      obtain ⟨same, toRead⟩ := ih
      obtain ⟨outcome, next⟩ := step.outcome
      simp only [List.mem_append, List.mem_singleton, or_imp, forall_and, forall_eq]
      constructor
      · rw [← same, outcome]
        exact and_congr_right fun framed => Decoder.framed_iff (toRead framed) l.1
      · rintro ⟨-, framed⟩
        rw [next, ← outcome]
        exact framed.1
  exact boundary.1

/-- A packet whose bytes come one behind the other. -/
def Mouse.packet (s : Mouse) (p : MousePacket) : Option (Mouse × PacketOutcome) := do
  let u ← s.mouseint 50 1 p.header
  let v ← u.mouseint 50 1 p.x
  let t ← v.mouseint 50 1 p.y
  return (t, s.decoder.outcome p)

theorem Mouse.packet_step {s t : Mouse} {p : MousePacket} {o : PacketOutcome}
    (h : s.packet p = some (t, o)) : s.PacketStep (p, o) t := by
  simp only [packet, Runs.bind_some] at h
  obtain ⟨u, hu, v, hv, w, hw, h⟩ := h
  cases h
  have ready : (1 : UInt8) &&& 0x01 ≠ 0 := by decide
  have now : ∀ s : Mouse, s.Idle s := fun s => ⟨[], .nil, by simp⟩
  have du := mouseint_decoder ready hu
  have dv := mouseint_decoder ready hv
  have dt := mouseint_decoder ready hw
  refine ⟨u, v, _, _, _, _, _, _, ⟨s, 50, 1, now s, ready, hu, rfl, rfl⟩,
    ⟨u, 50, 1, now u, ready, hv, rfl, rfl⟩, ⟨v, 50, 1, now v, ready, hw, rfl, rfl⟩, ?_⟩
  rw [Decoder.outcome, ← du, ← dv, ← dt]
  rfl

/-- The right button goes down with a movement, the middle button comes and is ignored, and the
left button goes down. -/
theorem packets_framed_iff_three : ∃ s labels, Steps Mouse.PacketStep sampleBoot labels s ∧
    labels.map (fun l => l.2.reports) =
      [[⟨false, true, 5, -3⟩], [], [⟨true, true, -256, 0⟩]] ∧
    ∀ l ∈ labels, l.2.Framed l.1 := by
  have result : (execOut Mouse.packet sampleBoot [⟨0x0a, 5, 3, by decide⟩, ⟨0x0c, 3, 4, by decide⟩,
      ⟨0x1b, 0, 0, by decide⟩]).map (fun r => (r.2.map fun l => l.2.reports,
        decide (∀ l ∈ r.2, l.1.Clear))) =
      some ([[⟨false, true, 5, -3⟩], [], [⟨true, true, -256, 0⟩]], true) := by
    decide +kernel
  obtain ⟨⟨s, labels⟩, run, e⟩ := map_eq_some_iff.mp result
  rw [Prod.mk.injEq, decide_eq_true_eq] at e
  have steps : Steps Mouse.PacketStep sampleBoot labels s :=
    (Steps.of_execOut run).mono fun step => Mouse.packet_step step
  exact ⟨s, labels, steps, e.1, (packets_framed_iff rfl steps).1.mpr e.2⟩

/-- The middle button comes with a movement of eight to the right.  The displacement is taken as
a header, the next byte as a displacement in x, and behind the packet one in y is expected. -/
theorem packet_frame_lost : ∃ s, Steps Mouse.PacketStep sampleBoot
    [(⟨0x0c, 0x08, 0, by decide⟩, ⟨[], true, .yMovement⟩)] s ∧ s.toRead = .yMovement := by
  have result : (sampleBoot.packet ⟨0x0c, 0x08, 0, by decide⟩).map (fun r => (r.2, r.1.toRead)) =
      some (⟨[], true, .yMovement⟩, .yMovement) := by
    decide +kernel
  obtain ⟨⟨s, o⟩, run, e⟩ := map_eq_some_iff.mp result
  rw [Prod.mk.injEq] at e
  obtain ⟨rfl, toRead⟩ := e
  exact ⟨s, .single (Mouse.packet_step run), toRead⟩

end Xv6Gui
