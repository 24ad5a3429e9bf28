import Xv6Gui.Buf.Cache
import Xv6Gui.Lib.Effect

/-!
# The buffer cache is transparent

Whoever reads a sector through the cache sees what was last written to it
through any buffer, or what is on the disk if nothing was.

Two things carry this.  Where the sectors are (`Placed`): the list goes through
all buffers, every buffer is valid or was never used, and no two valid ones are
for the same sector.  And what is in them (`Current`): a valid buffer has the
latest contents of its sector, and so has the disk unless the buffer is dirty.

`binit` leaves all buffers with the device -1 and sector 0.  A buffer that was
never used may be found under that name, so the order of the list matters: what
is valid stands before what was never used (`Placed.order`).
-/

namespace Xv6Gui

open Function (update)

/-! ## What was written -/

/-- What is on the disks. -/
abbrev Contents := UInt32 → UInt32 → SectorData

/-- A sector is written. -/
def Contents.write (m : Contents) (dev sector : UInt32) (data : SectorData) : Contents :=
  update m dev (update (m dev) sector data)

/-- The disks after a call. -/
def Contents.record (m : Contents) : BufDone → Contents
  | .wrote dev sector data => m.write dev sector data
  | .got _ | .released => m

/-- The data last written for each sector, or what was on the disk. -/
def latest (disk : Contents) (done : List BufDone) : Contents := done.foldl Contents.record disk

theorem latest_snoc (disk : Contents) (done : List BufDone) (d : BufDone) :
    latest disk (done ++ [d]) = (latest disk done).record d := by
  simp [latest]

theorem Contents.write_same (m : Contents) (dev sector : UInt32) (data : SectorData) :
    m.write dev sector data dev sector = data := by
  simp [Contents.write]

theorem Contents.write_other (m : Contents) {dev sector dev' sector' : UInt32} (data : SectorData)
    (h : ¬ (dev' = dev ∧ sector' = sector)) :
    m.write dev sector data dev' sector' = m dev' sector' := by
  rw [Contents.write]
  by_cases e : dev' = dev
  · subst e
    rw [Function.update_self, Function.update_of_ne]
    exact fun e' => h ⟨rfl, e'⟩
  · rw [Function.update_of_ne e]

/-! ## Where the sectors are -/

namespace BufEntry

/-- The buffer is for this sector. -/
def For (b : BufEntry) (dev sector : UInt32) : Prop := b.dev = dev ∧ b.sector = sector
  deriving Decidable

/-- A buffer that `binit` left. -/
structure Unused (b : BufEntry) : Prop where
  busy : b.busy = false
  valid : b.valid = false
  dirty : b.dirty = false
  dev : b.dev = -1

/-- The same sector is in the same state. -/
structure SamePlace (b b' : BufEntry) : Prop where
  valid : b'.valid = b.valid
  dev : b'.dev = b.dev
  sector : b'.sector = b.sector

/-- The same sector is in the same state, with the same contents. -/
structure SameData (b b' : BufEntry) : Prop extends SamePlace b b' where
  dirty : b'.dirty = b.dirty
  data : b'.data = b.data

theorem SamePlace.refl (b : BufEntry) : SamePlace b b := ⟨rfl, rfl, rfl⟩

theorem SameData.refl (b : BufEntry) : SameData b b := ⟨.refl b, rfl, rfl⟩

end BufEntry

namespace Bcache

variable {l l₁ l₂ : List BufPtr} {f : BufEntry → BufEntry} {op : BufOp}

/-- The list goes through the buffers in the order `l`, and a valid buffer does
not stand behind one that was never used and has the same name. -/
structure Order (c : Bcache) (l : List BufPtr) : Prop where
  circle : Circular.Circle c.next c.prev .head (l.map .buf)
  perm : l.Perm (List.finRange nbuf)
  ahead : l.Pairwise fun i j => (c.buf i).valid = false → (c.buf j).valid = true →
    ¬ (c.buf j).For (c.buf i).dev (c.buf i).sector

/-- Where the sectors are. -/
structure Placed (c : Bcache) : Prop where
  order : ∃ l, c.Order l
  filled : ∀ i, (c.buf i).valid = true ∨ (c.buf i).Unused
  unique : ∀ i j, (c.buf i).valid = true → (c.buf j).valid = true →
    (c.buf j).For (c.buf i).dev (c.buf i).sector → i = j

/-- What is in the buffers and on the disks. -/
structure Current (m : Contents) (c : Bcache) : Prop where
  data : ∀ i, (c.buf i).valid = true → (c.buf i).data = m (c.buf i).dev (c.buf i).sector
  disk : ∀ dev sector, c.disk dev sector = m dev sector ∨
    ∃ i, (c.buf i).valid = true ∧ (c.buf i).dirty = true ∧ (c.buf i).For dev sector

variable {c t : Bcache} {m : Contents} {refuses : Refusal} {i : BufPtr} {dev sector : UInt32}

theorem modify_same (c : Bcache) (i : BufPtr) (f : BufEntry → BufEntry) :
    (c.modify i f).buf i = f (c.buf i) :=
  Function.update_self ..

theorem modify_other (c : Bcache) {i j : BufPtr} (f : BufEntry → BufEntry) (h : j ≠ i) :
    (c.modify i f).buf j = c.buf j :=
  Function.update_of_ne h ..

theorem Order.mem (h : c.Order l) (i : BufPtr) : i ∈ l :=
  h.perm.mem_iff.mpr (List.mem_finRange i)

theorem Order.length (h : c.Order l) : l.length = nbuf := by
  rw [h.perm.length_eq, List.length_finRange]

theorem Placed.valid_of_busy (h : c.Placed) (busy : (c.buf i).busy = true) :
    (c.buf i).valid = true := by
  rcases h.filled i with valid | unused
  · exact valid
  · rw [unused.busy] at busy
    cases busy

/-- A buffer that is changed, but for its sector. -/
theorem SamePlace.modify (same : BufEntry.SamePlace (c.buf i) (f (c.buf i)))
    (j : BufPtr) : BufEntry.SamePlace (c.buf j) ((c.modify i f).buf j) := by
  by_cases e : j = i
  · subst e
    rw [modify_same]
    exact same
  · rw [modify_other c f e]
    exact .refl _

theorem modify_busy (c : Bcache) (i : BufPtr) (busy : Bool) (j : BufPtr) :
    BufEntry.SameData (c.buf j) ((c.modify i fun b => { b with busy := busy }).buf j) := by
  by_cases e : j = i
  · rw [e, modify_same]
    exact ⟨⟨rfl, rfl, rfl⟩, rfl, rfl⟩
  · rw [modify_other c _ e]
    exact .refl _

theorem Order.keep (h : c.Order l)
    (same : ∀ j, BufEntry.SamePlace (c.buf j) (t.buf j)) (next : t.next = c.next)
    (prev : t.prev = c.prev) : t.Order l where
  circle := by
    rw [next, prev]
    exact h.circle
  perm := h.perm
  ahead := h.ahead.imp fun {i j} ahead => by
    rw [(same i).valid, (same i).dev, (same i).sector, (same j).valid, BufEntry.For, (same j).dev,
      (same j).sector]
    exact ahead

/-- Nothing has moved. -/
theorem Placed.keep (h : c.Placed) (order : ∃ l, t.Order l)
    (same : ∀ j, BufEntry.SamePlace (c.buf j) (t.buf j))
    (unused : ∀ j, (c.buf j).Unused → (t.buf j).Unused) : t.Placed where
  order := order
  filled j := by
    rw [(same j).valid]
    exact (h.filled j).imp_right (unused j)
  unique j k hj hk same_sector := by
    rw [(same j).valid] at hj
    rw [(same k).valid] at hk
    rw [BufEntry.For, (same j).dev, (same j).sector, (same k).dev, (same k).sector] at same_sector
    exact h.unique j k hj hk same_sector

/-- A valid buffer is changed, but for its sector. -/
theorem Placed.modify (h : c.Placed) (valid : (c.buf i).valid = true)
    (same : BufEntry.SamePlace (c.buf i) (f (c.buf i))) : (c.modify i f).Placed := by
  obtain ⟨l, order⟩ := h.order
  refine h.keep ⟨l, order.keep (SamePlace.modify same) rfl rfl⟩ (SamePlace.modify same) ?_
  intro j unused
  rw [modify_other]
  · exact unused
  · rintro rfl
    rw [unused.valid] at valid
    cases valid

/-! ## Relinking -/

/-- `brelse` moves the buffer to the front. -/
theorem Order.relink (h : c.Order (l₁ ++ i :: l₂))
    (valid : (c.buf i).valid = true) :
    ((c.unlink (.buf i)).insert (.buf i)).Order (i :: (l₁ ++ l₂)) where
  circle := by
    have circle := h.circle
    rw [List.map_append, List.map_cons] at circle
    rw [List.map_cons, List.map_append]
    refine circle.unlink.push ?_
    have nodup := (List.nodup_cons.mp circle.nodup).2
    rw [List.nodup_middle, List.nodup_cons] at nodup
    rw [List.mem_cons, not_or]
    exact ⟨nofun, nodup.1⟩
  perm := List.perm_middle.symm.trans h.perm
  ahead := by
    have ahead := h.ahead
    refine List.pairwise_cons.mpr ⟨?_, ?_⟩
    · intro j _ invalid
      rw [show ((c.unlink (.buf i)).insert (.buf i)).buf i = c.buf i from rfl, valid] at invalid
      cases invalid
    · exact ahead.sublist (List.Sublist.append_left (List.sublist_cons_self i l₂) l₁)

theorem Placed.brelse (h : c.Placed) (released : c.brelse i = .ok t) :
    t.Placed ∧ (∀ j, BufEntry.SameData (c.buf j) (t.buf j)) ∧ t.disk = c.disk := by
  rw [Bcache.brelse] at released
  split at released
  · cases released
  · rename_i busy
    cases released
    rw [Bool.not_eq_true', Bool.not_eq_false] at busy
    have valid := h.valid_of_busy busy
    obtain ⟨l, order⟩ := h.order
    obtain ⟨l₁, l₂, rfl⟩ := List.append_of_mem (order.mem i)
    have moved : ((c.unlink (.buf i)).insert (.buf i)).Placed :=
      h.keep ⟨_, order.relink valid⟩ (fun j => .refl _) fun j unused => unused
    exact ⟨moved.modify valid ⟨rfl, rfl, rfl⟩, modify_busy _ i false, rfl⟩

/-! ## Finding a buffer -/

theorem Order.scan_next (h : c.Order l) (P : BufEntry → Bool) :
    Circular.scan c.next .head (c.on P) nbuf (c.next .head) =
      (l.find? fun j => P (c.buf j)).map .buf := by
  have found := h.circle.scan (P := c.on P)
  rw [List.length_map, h.length, List.find?_map] at found
  exact found

theorem Order.scan_prev (h : c.Order l) (P : BufEntry → Bool) :
    Circular.scan c.prev .head (c.on P) nbuf (c.prev .head) =
      (l.reverse.find? fun j => P (c.buf j)).map .buf := by
  have found := h.circle.reverse.scan (P := c.on P)
  rw [List.length_reverse, List.length_map, h.length, ← List.map_reverse, List.find?_map] at found
  exact found

/-- The ends of `bget`. -/
inductive Got (c : Bcache) (dev sector : UInt32) : Except BufStop (BufPtr × Bcache) → Prop where
  | sleeps {i : BufPtr} (busy : (c.buf i).busy = true) (here : (c.buf i).For dev sector) :
      Got c dev sector (.error .sleeps)
  | hit {i : BufPtr} (free : (c.buf i).busy = false) (here : (c.buf i).For dev sector)
      {l₁ l₂ : List BufPtr} (order : c.Order (l₁ ++ i :: l₂))
      (first : ∀ j ∈ l₁, ¬ (c.buf j).For dev sector) :
      Got c dev sector (.ok (i, c.modify i fun b => { b with busy := true }))
  | recycled {i : BufPtr} (free : (c.buf i).busy = false) (clean : (c.buf i).dirty = false)
      (missing : ∀ j, ¬ (c.buf j).For dev sector) :
      Got c dev sector (.ok (i, c.modify i fun b =>
        { b with busy := true, valid := false, dirty := false, dev := dev, sector := sector }))
  | exhausted (missing : ∀ j, ¬ (c.buf j).For dev sector)
      (full : ∀ j, (c.buf j).busy = true ∨ (c.buf j).dirty = true) :
      Got c dev sector (.error (.panics "bget: no buffers"))

theorem Placed.bget (h : c.Placed) (dev sector : UInt32) : Got c dev sector (c.bget dev sector) := by
  obtain ⟨l, order⟩ := h.order
  rw [Bcache.bget, order.scan_next, order.scan_prev]
  cases found : l.find? fun j => decide ((c.buf j).dev = dev ∧ (c.buf j).sector = sector) with
  | some i =>
    obtain ⟨here, l₁, l₂, rfl, first⟩ := List.find?_eq_some_iff_append.mp found
    have here : (c.buf i).For dev sector := of_decide_eq_true here
    rw [Option.map_some]
    dsimp only
    split
    · rename_i busy
      exact .sleeps busy here
    · rename_i free
      refine .hit (Bool.eq_false_iff.mpr free) here order ?_
      intro j hj other
      have ne := first j hj
      rw [Bool.not_eq_true', decide_eq_false_iff_not] at ne
      exact ne other
  | none =>
    have missing : ∀ j, ¬ (c.buf j).For dev sector := by
      intro j
      have := List.find?_eq_none.mp found j (order.mem j)
      simpa [BufEntry.For] using this
    rw [Option.map_none]
    dsimp only
    cases other : l.reverse.find? fun j => !(c.buf j).busy && !(c.buf j).dirty with
    | some i =>
      have clean := List.find?_some other
      rw [Bool.and_eq_true, Bool.not_eq_true', Bool.not_eq_true'] at clean
      exact .recycled clean.1 clean.2 missing
    | none =>
      refine .exhausted missing ?_
      intro j
      have := List.find?_eq_none.mp other j (List.mem_reverse.mpr (order.mem j))
      rw [Bool.and_eq_true, Bool.not_eq_true', Bool.not_eq_true', not_and_or,
        Bool.not_eq_false, Bool.not_eq_false] at this
      exact this

/-! ## Reading a sector -/

theorem modify_modify (c : Bcache) (i : BufPtr) (f g : BufEntry → BufEntry) :
    (c.modify i f).modify i g = c.modify i fun b => g (f b) := by
  simp [Bcache.modify]

theorem modify_congr {g : BufEntry → BufEntry} (h : f (c.buf i) = g (c.buf i)) :
    c.modify i f = c.modify i g := by
  rw [Bcache.modify, Bcache.modify, h]

/-- `iderw` of a busy buffer that is neither valid nor dirty reads the sector. -/
theorem iderw_read (busy : (c.buf i).busy = true) (invalid : (c.buf i).valid = false)
    (clean : (c.buf i).dirty = false) :
    c.iderw refuses i = match refuses (c.buf i).dev (c.buf i).sector with
      | some message => .error (.panics message)
      | none => .ok (c.modify i fun b => { b with data := c.disk b.dev b.sector, valid := true }) := by
  simp only [Bcache.iderw, busy, invalid, clean]
  rfl

/-- The buffer with the sector in it. -/
def loaded (c : Bcache) (i : BufPtr) (dev sector : UInt32) : Bcache :=
  c.modify i fun _ => ⟨true, true, false, dev, sector, c.disk dev sector⟩

/-- The ends of `bread`. -/
inductive Read (refuses : Refusal) (c : Bcache) (dev sector : UInt32) :
    Except BufStop (BufPtr × Bcache) → Prop where
  | sleeps {i : BufPtr} (busy : (c.buf i).busy = true) (here : (c.buf i).For dev sector) :
      Read refuses c dev sector (.error .sleeps)
  | hit {i : BufPtr} (free : (c.buf i).busy = false) (valid : (c.buf i).valid = true)
      (here : (c.buf i).For dev sector) :
      Read refuses c dev sector (.ok (i, c.modify i fun b => { b with busy := true }))
  | loaded {i : BufPtr} (free : (c.buf i).busy = false) (clean : (c.buf i).dirty = false)
      (absent : ∀ j, (c.buf j).valid = true → ¬ (c.buf j).For dev sector)
      {l₁ l₂ : List BufPtr} (order : c.Order (l₁ ++ i :: l₂))
      (first : ∀ j ∈ l₁, ¬ (c.buf j).For dev sector) :
      Read refuses c dev sector (.ok (i, c.loaded i dev sector))
  | refused {message : String} (refused : refuses dev sector = some message) :
      Read refuses c dev sector (.error (.panics message))
  | exhausted (missing : ∀ j, ¬ (c.buf j).For dev sector)
      (full : ∀ j, (c.buf j).busy = true ∨ (c.buf j).dirty = true) :
      Read refuses c dev sector (.error (.panics "bget: no buffers"))

theorem bread_ok {r : BufPtr × Bcache} (h : c.bget dev sector = .ok r) :
    c.bread refuses dev sector =
      if (r.2.buf r.1).valid then .ok r else (r.2.iderw refuses r.1).map fun t => (r.1, t) := by
  rw [Bcache.bread, h]
  cases hv : (r.2.buf r.1).valid with
  | true => simp [bind, Except.bind, hv, pure, Except.pure]
  | false =>
    cases hr : r.2.iderw refuses r.1 <;>
      simp [bind, Except.bind, hv, hr, pure, Except.pure, Except.map]

theorem bread_error {stop : BufStop} (h : c.bget dev sector = .error stop) :
    c.bread refuses dev sector = .error stop := by
  rw [Bcache.bread, h]
  rfl

/-- A buffer under this name that is not valid was never used, so no valid one has the name. -/
theorem Order.absent (order : c.Order (l₁ ++ i :: l₂))
    (here : (c.buf i).For dev sector) (invalid : (c.buf i).valid = false)
    (first : ∀ j ∈ l₁, ¬ (c.buf j).For dev sector) (j : BufPtr) (valid : (c.buf j).valid = true) :
    ¬ (c.buf j).For dev sector := by
  rcases List.mem_append.mp (order.mem j) with hj | hj
  · exact first j hj
  · rcases List.mem_cons.mp hj with rfl | hj
    · rw [valid] at invalid
      cases invalid
    · have ahead := (List.pairwise_append.mp order.ahead).2.1
      have behind := (List.pairwise_cons.mp ahead).1 j hj invalid valid
      rwa [here.1, here.2] at behind

theorem Placed.bread (h : c.Placed) (refuses : Refusal) (dev sector : UInt32) :
    Read refuses c dev sector (c.bread refuses dev sector) := by
  have got := h.bget dev sector
  generalize hr : c.bget dev sector = r at got
  cases got with
  | sleeps busy here =>
    rw [bread_error hr]
    exact .sleeps busy here
  | exhausted missing full =>
    rw [bread_error hr]
    exact .exhausted missing full
  | @hit i free here l₁ l₂ order first =>
    rw [bread_ok hr]
    dsimp only
    rw [modify_same]
    cases hv : (c.buf i).valid with
    | true => exact .hit free hv here
    | false =>
      have unused : (c.buf i).Unused := (h.filled i).resolve_left (by simp [hv])
      rw [if_neg (by simp), iderw_read (by rw [modify_same]) (by rw [modify_same, hv])
        (by rw [modify_same]; exact unused.dirty), modify_same, modify_modify, here.1, here.2]
      cases hf : refuses dev sector with
      | some message => exact .refused hf
      | none =>
        have same : (c.modify i fun b =>
            { b with busy := true, data := c.disk b.dev b.sector, valid := true }) =
              c.loaded i dev sector := by
          refine modify_congr ?_
          rw [here.1, here.2, unused.dirty]
        exact same ▸ .loaded free unused.dirty (order.absent here hv first) order first
  | @recycled i free clean missing =>
    rw [bread_ok hr]
    dsimp only
    rw [modify_same, if_neg (by simp), iderw_read (by rw [modify_same]) (by rw [modify_same])
      (by rw [modify_same]), modify_same, modify_modify]
    cases hf : refuses dev sector with
    | some message => exact .refused hf
    | none =>
      obtain ⟨l, order⟩ := h.order
      obtain ⟨l₁, l₂, rfl⟩ := List.append_of_mem (order.mem i)
      exact .loaded free clean (fun j _ => missing j) order fun j _ => missing j

theorem loaded_same (c : Bcache) (i : BufPtr) (dev sector : UInt32) :
    (c.loaded i dev sector).buf i = ⟨true, true, false, dev, sector, c.disk dev sector⟩ :=
  modify_same ..

theorem loaded_other (c : Bcache) {i j : BufPtr} (dev sector : UInt32) (h : j ≠ i) :
    (c.loaded i dev sector).buf j = c.buf j :=
  modify_other _ _ h

/-- In the same order, with the sector read into a buffer that no unused one of
its name stands before. -/
theorem Order.loaded (order : c.Order (l₁ ++ i :: l₂))
    (first : ∀ j ∈ l₁, ¬ (c.buf j).For dev sector) :
    (c.loaded i dev sector).Order (l₁ ++ i :: l₂) where
  circle := order.circle
  perm := order.perm
  ahead := by
    have nodup : (l₁ ++ i :: l₂).Nodup := order.perm.nodup_iff.mpr (List.nodup_finRange nbuf)
    rw [List.nodup_middle, List.nodup_cons, List.mem_append, not_or] at nodup
    obtain ⟨⟨out₁, out₂⟩, _⟩ := nodup
    have other : ∀ {j}, j ≠ i → (c.loaded i dev sector).buf j = c.buf j := fun h =>
      loaded_other c dev sector h
    have ne₁ : ∀ {j}, j ∈ l₁ → j ≠ i := fun hj e => out₁ (e ▸ hj)
    have ne₂ : ∀ {j}, j ∈ l₂ → j ≠ i := fun hj e => out₂ (e ▸ hj)
    obtain ⟨before, behind, across⟩ := List.pairwise_append.mp order.ahead
    obtain ⟨_, behind⟩ := List.pairwise_cons.mp behind
    refine List.pairwise_append.mpr ⟨?_, List.pairwise_cons.mpr ⟨?_, ?_⟩, ?_⟩
    · refine before.imp_of_mem ?_
      intro j k hj hk h
      rw [other (ne₁ hj), other (ne₁ hk)]
      exact h
    · intro j _ invalid
      rw [loaded_same] at invalid
      cases invalid
    · refine behind.imp_of_mem ?_
      intro j k hj hk h
      rw [other (ne₂ hj), other (ne₂ hk)]
      exact h
    · intro j hj k hk
      rw [other (ne₁ hj)]
      rcases List.mem_cons.mp hk with rfl | hk
      · rw [loaded_same]
        intro _ _ same
        exact first j hj ⟨same.1.symm, same.2.symm⟩
      · rw [other (ne₂ hk)]
        exact across j hj k (.tail _ hk)

theorem Placed.loaded (h : c.Placed)
    (absent : ∀ j, (c.buf j).valid = true → ¬ (c.buf j).For dev sector) (order : c.Order (l₁ ++ i :: l₂))
    (first : ∀ j ∈ l₁, ¬ (c.buf j).For dev sector) : (c.loaded i dev sector).Placed where
  order := ⟨_, order.loaded first⟩
  filled j := by
    by_cases e : j = i
    · rw [e, loaded_same]
      exact .inl rfl
    · rw [loaded_other c dev sector e]
      exact h.filled j
  unique j k hj hk same := by
    by_cases e : j = i
    · by_cases e' : k = i
      · exact e.trans e'.symm
      · rw [loaded_other c dev sector e'] at hk same
        rw [e, loaded_same] at same
        exact absurd same (absent k hk)
    · by_cases e' : k = i
      · rw [loaded_other c dev sector e] at hj same
        rw [e', loaded_same] at same
        exact absurd ⟨same.1.symm, same.2.symm⟩ (absent j hj)
      · rw [loaded_other c dev sector e] at hj same
        rw [loaded_other c dev sector e'] at hk same
        exact h.unique j k hj hk same

/-! ## What is in the buffers -/

theorem Current.keep (h : c.Current m) (same : ∀ j, BufEntry.SameData (c.buf j) (t.buf j))
    (disk : t.disk = c.disk) : t.Current m where
  data j hj := by
    rw [(same j).valid] at hj
    rw [(same j).data, (same j).dev, (same j).sector]
    exact h.data j hj
  disk dev sector := by
    rw [disk]
    refine (h.disk dev sector).imp_right ?_
    rintro ⟨j, valid, dirty, here⟩
    refine ⟨j, (same j).valid.trans valid, (same j).dirty.trans dirty, ?_⟩
    rw [BufEntry.For, (same j).dev, (same j).sector]
    exact here

/-- No valid buffer has the sector, so it is on the disk. -/
theorem Current.on_disk (h : c.Current m)
    (absent : ∀ j, (c.buf j).valid = true → ¬ (c.buf j).For dev sector) :
    c.disk dev sector = m dev sector := by
  rcases h.disk dev sector with same | ⟨j, valid, _, here⟩
  · exact same
  · exact absurd here (absent j valid)

theorem Current.loaded (h : c.Current m) (clean : (c.buf i).dirty = false)
    (absent : ∀ j, (c.buf j).valid = true → ¬ (c.buf j).For dev sector) :
    (c.loaded i dev sector).Current m where
  data j hj := by
    by_cases e : j = i
    · rw [e, loaded_same]
      exact h.on_disk absent
    · rw [loaded_other c dev sector e] at hj ⊢
      exact h.data j hj
  disk dev' sector' := by
    refine (h.disk dev' sector').imp_right ?_
    rintro ⟨j, valid, dirty, here⟩
    have e : j ≠ i := by
      rintro rfl
      rw [clean] at dirty
      cases dirty
    refine ⟨j, ?_⟩
    rw [loaded_other c dev sector e]
    exact ⟨valid, dirty, here⟩

/-- Every other valid buffer is for another sector. -/
theorem Placed.elsewhere (h : c.Placed) (valid : (c.buf i).valid = true) {j : BufPtr}
    (ne : j ≠ i) (hj : (c.buf j).valid = true) :
    ¬ ((c.buf j).dev = (c.buf i).dev ∧ (c.buf j).sector = (c.buf i).sector) :=
  fun same => ne (h.unique i j valid hj same).symm

/-- The holder has written the sector into its buffer, and the disk has it or the
buffer is dirty. -/
theorem Current.write (h : c.Current m) (placed : c.Placed) (valid : (c.buf i).valid = true)
    {b : BufEntry} (same : BufEntry.SamePlace (c.buf i) b) (buf : t.buf = update c.buf i b)
    (disk : t.disk = c.disk ∧ b.dirty = true ∨
      t.disk = Contents.write c.disk (c.buf i).dev (c.buf i).sector b.data) :
    t.Current (m.write (c.buf i).dev (c.buf i).sector b.data) where
  data j hj := by
    rw [buf, Function.update_apply] at hj ⊢
    split at hj
    · rename_i e
      rw [if_pos e, same.dev, same.sector, Contents.write_same]
    · rename_i e
      rw [if_neg e, Contents.write_other]
      · exact h.data j hj
      · exact placed.elsewhere valid e hj
  disk dev sector := by
    have other : ∀ j, ¬ (dev = (c.buf i).dev ∧ sector = (c.buf i).sector) →
        (c.buf j).For dev sector → t.buf j = c.buf j := by
      intro j elsewhere here
      rw [buf, Function.update_of_ne]
      rintro rfl
      exact elsewhere ⟨here.1.symm, here.2.symm⟩
    by_cases e : dev = (c.buf i).dev ∧ sector = (c.buf i).sector
    · obtain ⟨rfl, rfl⟩ := e
      rcases disk with ⟨_, dirty⟩ | disk
      · refine .inr ⟨i, ?_⟩
        rw [buf, Function.update_self]
        exact ⟨same.valid.trans valid, dirty, same.dev, same.sector⟩
      · left
        rw [disk, Contents.write_same, Contents.write_same]
    · have untouched : t.disk dev sector = c.disk dev sector := by
        rcases disk with ⟨disk, _⟩ | disk
        · rw [disk]
        · rw [disk, Contents.write_other _ _ e]
      rw [untouched, Contents.write_other _ _ e]
      refine (h.disk dev sector).imp_right ?_
      rintro ⟨j, hj, dirty, here⟩
      refine ⟨j, ?_⟩
      rw [other j e here]
      exact ⟨hj, dirty, here⟩

/-! ## Calls -/

/-- The data is stored in place, and `bwrite` leaves the buffer clean and the
data on the disk. -/
theorem bwrite_store {data : SectorData} (h : (c.store i data).bwrite refuses i = .ok t) :
    t = { c.modify i fun b => { b with data := data, dirty := false, valid := true } with
      disk := Contents.write c.disk (c.buf i).dev (c.buf i).sector data } := by
  rw [Bcache.bwrite, Bcache.store] at h
  split at h
  · cases h
  · rename_i busy
    rw [modify_same, Bool.not_eq_true', Bool.not_eq_false] at busy
    simp only [Bcache.iderw, modify_same, modify_modify, busy, Bool.not_true, Bool.false_eq_true,
      if_false, Bool.and_false, if_true] at h
    split at h
    · cases h
    · cases h
      rfl

theorem logWrite_store (c : Bcache) (i : BufPtr) (data : SectorData) :
    (c.store i data).logWrite i = c.modify i fun b => { b with data := data, dirty := true } :=
  modify_modify ..

/-- The places do not depend on the disk. -/
theorem Placed.withDisk (h : c.Placed) (disk : Contents) :
    ({ c with disk := disk } : Bcache).Placed where
  order := h.order.imp fun _ order => ⟨order.circle, order.perm, order.ahead⟩
  filled := h.filled
  unique := h.unique

/-- The sectors are in their places, and the contents are those written. -/
structure Transparent (m : Contents) (c : Bcache) : Prop where
  placed : c.Placed
  current : c.Current m

theorem Transparent.bread (h : c.Transparent m)
    (done : c.bread refuses dev sector = .ok (i, t)) : t.Transparent m := by
  have read := h.placed.bread refuses dev sector
  rw [done] at read
  cases read with
  | hit free valid here =>
    exact ⟨h.placed.modify valid ⟨rfl, rfl, rfl⟩, h.current.keep (modify_busy c i true) rfl⟩
  | loaded free clean absent order first =>
    exact ⟨h.placed.loaded absent order first, h.current.loaded clean absent⟩

theorem Transparent.bwrite {data : SectorData} (h : c.Transparent m)
    (busy : (c.buf i).busy = true) (done : (c.store i data).bwrite refuses i = .ok t) :
    t.Transparent (m.write (c.buf i).dev (c.buf i).sector data) := by
  have valid := h.placed.valid_of_busy busy
  rw [bwrite_store done]
  have same : BufEntry.SamePlace (c.buf i) { c.buf i with data := data, dirty := false, valid := true } :=
    ⟨valid.symm, rfl, rfl⟩
  exact ⟨(h.placed.modify valid same).withDisk _,
    h.current.write h.placed valid same rfl (.inr rfl)⟩

theorem Transparent.logWrite (h : c.Transparent m) (busy : (c.buf i).busy = true)
    (data : SectorData) :
    ((c.store i data).logWrite i).Transparent (m.write (c.buf i).dev (c.buf i).sector data) := by
  have valid := h.placed.valid_of_busy busy
  rw [logWrite_store]
  have same : BufEntry.SamePlace (c.buf i) { c.buf i with data := data, dirty := true } :=
    ⟨rfl, rfl, rfl⟩
  exact ⟨h.placed.modify valid same, h.current.write h.placed valid same rfl (.inl ⟨rfl, rfl⟩)⟩

/-- The calls that return. -/
inductive Called (refuses : Refusal) (c : Bcache) : BufOp → Bcache → BufDone → Prop where
  | bread {dev sector : UInt32} {i : BufPtr} {t : Bcache}
      (h : c.bread refuses dev sector = .ok (i, t)) : Called refuses c (.bread dev sector) t (.got i)
  | bwrite {i : BufPtr} {data : SectorData} {t : Bcache}
      (h : (c.store i data).bwrite refuses i = .ok t) :
      Called refuses c (.bwrite i data) t (.wrote (c.buf i).dev (c.buf i).sector data)
  | logWrite {i : BufPtr} {data : SectorData} :
      Called refuses c (.logWrite i data) ((c.store i data).logWrite i)
        (.wrote (c.buf i).dev (c.buf i).sector data)
  | brelse {i : BufPtr} {t : Bcache} (h : c.brelse i = .ok t) :
      Called refuses c (.brelse i) t .released

theorem step_cases {d : BufDone} (done : c.step refuses op = .ok (t, d)) :
    Called refuses c op t d := by
  cases op with
  | bread dev sector =>
    rw [Bcache.step] at done
    cases h : c.bread refuses dev sector with
    | error stop =>
      rw [h] at done
      cases done
    | ok r =>
      rw [h] at done
      cases done
      exact .bread h
  | bwrite i data =>
    rw [Bcache.step] at done
    cases h : (c.store i data).bwrite refuses i with
    | error stop =>
      rw [h] at done
      cases done
    | ok u =>
      rw [h] at done
      cases done
      have here : t.buf i = { c.buf i with data := data, dirty := false, valid := true } := by
        rw [bwrite_store h]
        exact modify_same c i fun b => { b with data := data, dirty := false, valid := true }
      rw [here]
      exact .bwrite h
  | logWrite i data =>
    cases done
    have here : ((c.store i data).logWrite i).buf i = { c.buf i with data := data, dirty := true } := by
      rw [logWrite_store, modify_same]
    rw [here]
    exact .logWrite
  | brelse i =>
    rw [Bcache.step] at done
    cases h : c.brelse i with
    | error stop =>
      rw [h] at done
      cases done
    | ok u =>
      rw [h] at done
      cases done
      exact .brelse h

theorem Transparent.step {d : BufDone} (h : c.Transparent m) (uses : c.Uses op)
    (done : c.step refuses op = .ok (t, d)) : t.Transparent (m.record d) := by
  cases step_cases done with
  | bread read => exact h.bread read
  | bwrite written => exact h.bwrite uses written
  | logWrite => exact h.logWrite uses _
  | brelse released =>
    obtain ⟨placed, same, disk⟩ := h.placed.brelse released
    exact ⟨placed, h.current.keep same disk⟩

/-! ## After `binit` -/

/-- One round of the loop of `binit`. -/
theorem insert_round
    (circle : Circular.Circle c.next c.prev .head (l.map .buf)) (new : i ∉ l) :
    Circular.Circle (c.insert (.buf i)).next (c.insert (.buf i)).prev .head ((i :: l).map .buf) := by
  refine circle.push ?_
  rw [List.mem_cons, not_or, List.mem_map]
  refine ⟨nofun, ?_⟩
  rintro ⟨j, hj, e⟩
  cases e
  exact new hj

theorem binit_loop : ∀ (is : List BufPtr) {c : Bcache} {l : List BufPtr},
    Circular.Circle c.next c.prev .head (l.map .buf) → is.Nodup → (∀ i ∈ is, i ∉ l) →
    let t := is.foldl (fun c i => (c.insert (.buf i)).modify i fun b => { b with dev := -1 }) c
    Circular.Circle t.next t.prev .head ((is.reverse ++ l).map .buf) ∧ t.disk = c.disk ∧
      ∀ j, t.buf j = if j ∈ is then { c.buf j with dev := -1 } else c.buf j
  | [], _, _, circle, _, _ => ⟨circle, rfl, fun j => rfl⟩
  | i :: is, c, l, circle, nodup, new => by
    obtain ⟨out, nodup⟩ := List.nodup_cons.mp nodup
    have round := insert_round circle (new i (.head _))
    have rest := binit_loop is (c := (c.insert (.buf i)).modify i fun b => { b with dev := -1 })
      round nodup (by
        intro j hj hl
        rcases List.mem_cons.mp hl with rfl | hl
        · exact out hj
        · exact new j (.tail _ hj) hl)
    rw [List.foldl_cons]
    refine ⟨?_, rest.2.1, ?_⟩
    · rw [List.reverse_cons, List.append_assoc]
      exact rest.1
    · intro j
      rw [rest.2.2 j]
      by_cases e : j = i
      · subst e
        rw [if_neg out, if_pos (.head _), modify_same]
        rfl
      · rw [modify_other _ _ e]
        simp only [List.mem_cons, e, false_or]
        rfl

/-- `binit` leaves every buffer in the list, and none valid. -/
theorem binit_transparent (disk : Contents) : (binit (bss disk)).Transparent disk := by
  have start : Circular.Circle (update (bss disk).next .head .head)
      (update (bss disk).prev .head .head) .head (([] : List BufPtr).map .buf) :=
    ⟨⟨rfl, rfl⟩, by simp⟩
  obtain ⟨circle, on_disk, bufs⟩ := binit_loop (List.finRange nbuf)
    (c := { bss disk with
      next := update (bss disk).next .head .head, prev := update (bss disk).prev .head .head })
    start (List.nodup_finRange nbuf) fun _ _ => List.not_mem_nil
  have unused : ∀ j, (binit (bss disk)).buf j = ⟨false, false, false, -1, 0, fun _ => 0⟩ := by
    intro j
    rw [binit]
    rw [bufs j, if_pos (List.mem_finRange j)]
    rfl
  refine ⟨⟨⟨(List.finRange nbuf).reverse ++ [], circle, ?_, ?_⟩, ?_, ?_⟩, ?_, ?_⟩
  · rw [List.append_nil]
    exact List.reverse_perm _
  · refine List.pairwise_of_forall ?_
    intro j k _ valid
    rw [unused] at valid
    cases valid
  · intro j
    rw [unused]
    exact .inr ⟨rfl, rfl, rfl, rfl⟩
  · intro j k valid
    rw [unused] at valid
    cases valid
  · intro j valid
    rw [unused] at valid
    cases valid
  · intro dev sector
    left
    rw [binit, on_disk]
    rfl

/-! ## Runs -/

/-- What users see of the cache in a state, when `m` was written. -/
structure Coherent (refuses : Refusal) (m : Contents) (c : Bcache) : Prop where
  /-- The list goes through all buffers, both ways. -/
  list : ∃ l : List BufPtr, l.Perm (List.finRange nbuf) ∧
    Circular.Circle c.next c.prev .head (l.map .buf)
  /-- No two buffers in use are for the same sector. -/
  once : ∀ i j, (c.buf i).busy = true ∨ (c.buf i).valid = true →
    (c.buf j).busy = true ∨ (c.buf j).valid = true →
      (c.buf j).For (c.buf i).dev (c.buf i).sector → i = j
  /-- A device number other than that of `binit` is not used twice with a sector. -/
  named : ∀ i j, (c.buf i).dev ≠ -1 → (c.buf j).For (c.buf i).dev (c.buf i).sector → i = j
  /-- A busy or dirty buffer keeps its sector. -/
  kept : ∀ op t d, c.step refuses op = .ok (t, d) → ∀ i,
    (c.buf i).busy = true ∨ (c.buf i).dirty = true →
      (t.buf i).For (c.buf i).dev (c.buf i).sector
  /-- `bread` sleeps on a busy buffer, fails for want of a buffer or for a
  request the disk does not serve, or returns what was last written. -/
  reads : ∀ dev sector, match c.bread refuses dev sector with
    | .ok (i, t) => (t.buf i).busy = true ∧ (t.buf i).For dev sector ∧
        (t.buf i).data = m dev sector
    | .error .sleeps => ∃ i, (c.buf i).busy = true ∧ (c.buf i).For dev sector
    | .error (.panics _) => refuses dev sector ≠ none ∨
        ∀ i, (c.buf i).busy = true ∨ (c.buf i).dirty = true

theorem Placed.valid_of_used (h : c.Placed)
    (used : (c.buf i).busy = true ∨ (c.buf i).valid = true) : (c.buf i).valid = true :=
  used.elim h.valid_of_busy id

theorem Placed.valid_of_named (h : c.Placed) (named : (c.buf i).dev ≠ -1) :
    (c.buf i).valid = true :=
  (h.filled i).resolve_right fun unused => named unused.dev

/-- Only a free and clean buffer gets another sector. -/
theorem Placed.kept (h : c.Placed) {d : BufDone}
    (done : c.step refuses op = .ok (t, d)) (j : BufPtr)
    (pinned : (c.buf j).busy = true ∨ (c.buf j).dirty = true) :
    (t.buf j).For (c.buf j).dev (c.buf j).sector := by
  have in_place : ∀ {i : BufPtr} {f : BufEntry → BufEntry}, (f (c.buf i)).dev = (c.buf i).dev →
      (f (c.buf i)).sector = (c.buf i).sector →
        ((c.modify i f).buf j).For (c.buf j).dev (c.buf j).sector := by
    intro i f dev sector
    by_cases e : j = i
    · rw [e, modify_same]
      exact ⟨dev, sector⟩
    · rw [modify_other c f e]
      exact ⟨rfl, rfl⟩
  cases step_cases done with
  | @bread dev sector i t read =>
    have outcome := h.bread refuses dev sector
    rw [read] at outcome
    cases outcome with
    | hit free valid here => exact in_place rfl rfl
    | loaded free clean absent order first =>
      rw [loaded_other]
      · exact ⟨rfl, rfl⟩
      · rintro rfl
        rw [free, clean] at pinned
        rcases pinned with pinned | pinned <;> cases pinned
  | @bwrite i data t written =>
    rw [bwrite_store written]
    exact in_place (f := fun b => { b with data := data, dirty := false, valid := true }) rfl rfl
  | logWrite =>
    rw [logWrite_store]
    exact in_place rfl rfl
  | brelse released =>
    have same := (h.brelse released).2.1 j
    exact ⟨same.dev, same.sector⟩

theorem Transparent.reads (h : c.Transparent m) (refuses : Refusal) (dev sector : UInt32) :
    match c.bread refuses dev sector with
    | .ok (i, t) => (t.buf i).busy = true ∧ (t.buf i).For dev sector ∧
        (t.buf i).data = m dev sector
    | .error .sleeps => ∃ i, (c.buf i).busy = true ∧ (c.buf i).For dev sector
    | .error (.panics _) => refuses dev sector ≠ none ∨
        ∀ i, (c.buf i).busy = true ∨ (c.buf i).dirty = true := by
  have outcome := h.placed.bread refuses dev sector
  generalize c.bread refuses dev sector = r at outcome
  cases outcome with
  | @sleeps i busy here => exact ⟨i, busy, here⟩
  | @hit i free valid here =>
    dsimp only
    rw [modify_same]
    refine ⟨rfl, here, ?_⟩
    have data := h.current.data i valid
    rwa [here.1, here.2] at data
  | loaded free clean absent order first =>
    dsimp only
    rw [loaded_same]
    exact ⟨rfl, ⟨rfl, rfl⟩, h.current.on_disk absent⟩
  | refused refused =>
    left
    rw [refused]
    exact nofun
  | exhausted missing full => exact .inr full

theorem Transparent.coherent (h : c.Transparent m) : c.Coherent refuses m where
  list := by
    obtain ⟨l, order⟩ := h.placed.order
    exact ⟨l, order.perm, order.circle⟩
  once i j hi hj same :=
    h.placed.unique i j (h.placed.valid_of_used hi) (h.placed.valid_of_used hj) same
  named i j named same := by
    have named' : (c.buf j).dev ≠ -1 := by
      rw [same.1]
      exact named
    exact h.placed.unique i j (h.placed.valid_of_named named) (h.placed.valid_of_named named') same
  kept op t d done i pinned := h.placed.kept done i pinned
  reads := h.reads refuses

/-- After every run of calls from `binit` on, with each buffer used only by its
holder, the cache shows what was last written. -/
theorem buffer_cache_transparent {disk : Contents} {ls : List (BufOp × BufDone)}
    (run : Runs.Steps (Runs.Guarded (fun c l t => c.step refuses l.1 = .ok (t, l.2))
      fun c l => c.Uses l.1) (binit (bss disk)) ls c) :
    c.Coherent refuses (latest disk (ls.map Prod.snd)) := by
  have transparent : c.Transparent (latest disk (ls.map Prod.snd)) := by
    induction run with
    | nil => exact binit_transparent disk
    | snoc _ h ih =>
      rw [List.map_append, List.map_cons, List.map_nil, latest_snoc]
      exact ih.step h.1 h.2
  exact transparent.coherent

instance (c : Bcache) : ∀ op, Decidable (c.Uses op)
  | .bread _ _ => inferInstanceAs (Decidable True)
  | .bwrite _ _ | .logWrite _ _ | .brelse _ => inferInstanceAs (Decidable (_ = _))

/-- The step as a partial function, to evaluate runs. -/
def call (refuses : Refusal) (c : Bcache) (op : BufOp) : Option (Bcache × BufDone) :=
  if c.Uses op then (c.step refuses op).toOption else none

theorem call_steps {c₀ : Bcache} {ops : List BufOp} {ls : List (BufOp × BufDone)}
    (h : Runs.execOut (call refuses) c₀ ops = some (c, ls)) :
    Runs.Steps (Runs.Guarded (fun c l t => c.step refuses l.1 = .ok (t, l.2))
      fun c l => c.Uses l.1) c₀ ls c := by
  refine Runs.Steps.mono ?_ (Runs.Steps.of_execOut h)
  intro c l t hl
  rw [call] at hl
  split at hl
  · rename_i uses
    exact ⟨uses, Effect.eq_ok_of_toOption hl⟩
  · cases hl

/-- A sector is logged, and then read again. -/
theorem buffer_cache_transparent_logged :
    ∃ ls c, Runs.Steps (Runs.Guarded (fun c l t => c.step (memide 100) l.1 = .ok (t, l.2))
        fun c l => c.Uses l.1) (binit (bss fun _ _ _ => 0)) ls c ∧
      latest (fun _ _ _ => 0) (ls.map Prod.snd) 1 5 0 = 7 ∧ (c.buf 0).dirty = true ∧
        c.Coherent (memide 100) (latest (fun _ _ _ => 0) (ls.map Prod.snd)) := by
  have found : (Runs.execOut (call (memide 100)) (binit (bss fun _ _ _ => 0))
      [.bread 1 5, .logWrite 0 fun _ => 7, .brelse 0, .bread 1 5]).any (fun r =>
        latest (fun _ _ _ => 0) (r.2.map Prod.snd) 1 5 0 = 7 ∧
          (r.1.buf 0).dirty = true) = true := by
    decide +kernel
  obtain ⟨⟨c, ls⟩, hr, seen⟩ := (Option.any_eq_true _ _).mp found
  have run := call_steps hr
  obtain ⟨last, dirty⟩ := of_decide_eq_true seen
  exact ⟨ls, c, run, last, dirty, buffer_cache_transparent run⟩

end Bcache

end Xv6Gui
