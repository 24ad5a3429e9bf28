import Mathlib.Data.Int.Range
import Mathlib.Logic.Function.Basic

/-!
# Painting into a flat memory of pixels

A memory of pixels is a function of an integer address.  A picture is a list of
stores at addresses relative to a base, and `paint` makes them one after the
other.  A buffer is the part of the memory behind its base, so two buffers are
two bases, and nothing keeps the stores of one picture inside one buffer.

What `paint` leaves at an address depends on the memory before only through
that address (`paint_agree`).  This is the rule that compares two paintings of
the same picture, in the same buffer or in two.  `copyAt` copies single pixels
between two bases in a given order, `move` and `fill` are the block
operations.
-/

namespace Canvas

variable {α : Type*}

open Function (update)

variable {picture : List (Int × α)}

/-- Make the stores of a picture, the first one first. -/
def paint (m : Int → α) (base : Int) (picture : List (Int × α)) : Int → α :=
  picture.foldl (fun m w => update m (base + w.1) w.2) m

/-- Copy pixel by pixel from `src` to `dst`, at the given offsets. -/
def copyAt (m : Int → α) (dst src : Int) (offsets : List Int) : Int → α :=
  offsets.foldl (fun m o => update m (dst + o) (m (src + o))) m

/-- Copy `n` pixels at once; the two ranges may overlap. -/
def move (m : Int → α) (dst src n : Int) : Int → α := fun a =>
  if dst ≤ a ∧ a < dst + n then m (src + (a - dst)) else m a

/-- `n` cells get one value. -/
def fill (m : Int → α) (dst n : Int) (c : α) : Int → α := fun a =>
  if dst ≤ a ∧ a < dst + n then c else m a

variable {m m' : Int → α} {base base' dst src n a o : Int}

/-! ## Paint -/

@[simp] theorem paint_cons (w : Int × α) (picture : List (Int × α)) :
    paint m base (w :: picture) = paint (update m (base + w.1) w.2) base picture := rfl

/-- An address that no store hits keeps its pixel. -/
theorem paint_other (h : ∀ w ∈ picture, a ≠ base + w.1) :
    paint m base picture a = m a := by
  induction picture generalizing m with
  | nil => rfl
  | cons w picture ih =>
    rw [paint_cons, ih (fun v hv => h v (.tail _ hv))]
    exact Function.update_of_ne (h w (.head _)) _ _

/-- One picture painted twice agrees where the memories agreed before. -/
theorem paint_agree (h : m (base + o) = m' (base' + o)) :
    paint m base picture (base + o) = paint m' base' picture (base' + o) := by
  induction picture generalizing m m' with
  | nil => exact h
  | cons w picture ih =>
    rw [paint_cons, paint_cons]
    apply ih
    by_cases hw : o = w.1
    · rw [hw, Function.update_self, Function.update_self]
    · rw [Function.update_of_ne (by omega), Function.update_of_ne (by omega)]
      exact h

/-- A picture painted into a buffer, as one painted at the origin. -/
theorem paint_origin {b : Int → α} (h : m (base + o) = b o) :
    paint m base picture (base + o) = paint b 0 picture o := by
  have agree : paint m base picture (base + o) = paint b 0 picture (0 + o) :=
    paint_agree (by rw [h, zero_add])
  rw [agree, zero_add]

theorem paint_append (first second : List (Int × α)) :
    paint m base (first ++ second) = paint (paint m base first) base second :=
  List.foldl_append

/-- An address that a store hits has the pixel of one of them. -/
theorem paint_mem (h : ∃ w ∈ picture, a = base + w.1) :
    ∃ w ∈ picture, a = base + w.1 ∧ paint m base picture a = w.2 := by
  induction picture generalizing m with
  | nil => simp at h
  | cons v picture ih =>
    rw [paint_cons]
    by_cases later : ∃ w ∈ picture, a = base + w.1
    · obtain ⟨w, hw, e, color⟩ := ih later
      exact ⟨w, .tail _ hw, e, color⟩
    · have here : a = base + v.1 := by
        obtain ⟨w, hw, e⟩ := h
        cases hw with
        | head => exact e
        | tail _ hw => exact absurd ⟨w, hw, e⟩ later
      refine ⟨v, .head _, here, ?_⟩
      rw [paint_other fun w hw e => later ⟨w, hw, e⟩, here, Function.update_self]

/-- The stores of a loop leave the pixel of one round, if no other round stores another one there. -/
theorem paint_loop {β : Type*} (m : Int → α) (base : Int) {l : List β} {f : β → Int} {v : β → α}
    {b : β} (mem : b ∈ l) (same : ∀ c ∈ l, f c = f b → v c = v b) :
    paint m base (l.map fun b => (f b, v b)) (base + f b) = v b := by
  obtain ⟨w, hw, here, color⟩ := paint_mem (m := m)
    ⟨(f b, v b), List.mem_map_of_mem (f := fun b => (f b, v b)) mem, rfl⟩
  obtain ⟨c, hc, rfl⟩ := List.mem_map.mp hw
  rw [color]
  exact same c hc (by simpa using here.symm)

/-- A loop that stores a pixel at each of its indices. -/
theorem paint_index (m : Int → α) {l : List Int} (v : Int → α) {k : Int} (mem : k ∈ l) :
    paint m 0 (l.map fun i => (i, v i)) k = v k := by
  have loop := paint_loop m 0 (f := id) (v := v) mem fun c _ same => congrArg v same
  simpa using loop

/-- A loop that stores one pixel at some of its indices. -/
theorem paint_where (m : Int → α) (l : List Int) (p : Int → Bool) (c : α) (k : Int) :
    paint m 0 ((l.filter p).map fun i => (i, c)) k = if k ∈ l ∧ p k then c else m k := by
  split
  · rename_i hit
    exact paint_index m (fun _ => c) (List.mem_filter.mpr hit)
  · rename_i miss
    refine paint_other fun w hw here => ?_
    obtain ⟨i, hi, rfl⟩ := List.mem_map.mp hw
    obtain rfl : k = i := by simpa using here
    exact miss (List.mem_filter.mp hi)

/-- Paint in other colors. -/
theorem paint_map {β : Type*} (g : α → β) (picture : List (Int × α)) :
    paint (g ∘ m) base (picture.map fun w => (w.1, g w.2)) = g ∘ paint m base picture := by
  induction picture generalizing m with
  | nil => rfl
  | cons w picture ih =>
    rw [List.map_cons, paint_cons, paint_cons, ← ih]
    congr 1
    exact (Function.comp_update g m (base + w.1) w.2).symm

/-! ## Layers -/

section Layers

variable {ι : Type*} (f : ι → List (Int × α))

/-- The stores of several layers, each with the layer that it is from. -/
def layerStores (l : List ι) : List (Int × Option (ι × α)) :=
  l.flatMap fun i => (f i).map fun w => (w.1, some (i, w.2))

/-- The layers on an empty memory, the lowest one first. -/
def paintLayers (l : List ι) : Int → Option (ι × α) := paint (fun _ => none) 0 (layerStores f l)

/-- The pixels alone. -/
theorem paintLayers_pixels (l : List ι) (c : α) (a : Int) :
    ((paintLayers f l a).map Prod.snd).getD c = paint (fun _ => c) 0 (l.flatMap f) a := by
  let pixel : Option (ι × α) → α := fun w => (w.map Prod.snd).getD c
  have map : paint (pixel ∘ fun _ => none) 0 ((layerStores f l).map fun w => (w.1, pixel w.2)) =
      pixel ∘ paintLayers f l := paint_map pixel (layerStores f l)
  refine (congrFun map a).symm.trans ?_
  congr 1
  rw [layerStores, List.map_flatMap]
  simp [Function.comp_def, pixel]

/-- The layers leave the pixel of one of them, or the pixel that was there. -/
theorem paint_layerStores (m : Int → Option (ι × α)) (l : List ι) (a : Int) :
    (∃ j ∈ l, ∃ w ∈ f j, w.1 = a ∧ paint m 0 (layerStores f l) a = some (j, w.2)) ∨
      (∀ j ∈ l, ∀ w ∈ f j, w.1 ≠ a) ∧ paint m 0 (layerStores f l) a = m a := by
  by_cases hit : ∃ j ∈ l, ∃ w ∈ f j, w.1 = a
  · obtain ⟨j, hj, w, hw, e⟩ := hit
    have mem : (w.1, some (j, w.2)) ∈ layerStores f l :=
      List.mem_flatMap.mpr ⟨j, hj, List.mem_map_of_mem hw⟩
    have hit : ∃ v ∈ layerStores f l, a = 0 + v.1 := ⟨_, mem, by simp [e]⟩
    obtain ⟨v, hv, here, color⟩ := paint_mem (m := m) hit
    obtain ⟨k, hk, hv⟩ := List.mem_flatMap.mp hv
    obtain ⟨u, hu, rfl⟩ := List.mem_map.mp hv
    exact .inl ⟨k, hk, u, hu, by simpa using here.symm, color⟩
  · push Not at hit
    refine .inr ⟨hit, paint_other ?_⟩
    intro v hv here
    obtain ⟨k, hk, hv⟩ := List.mem_flatMap.mp hv
    obtain ⟨u, hu, rfl⟩ := List.mem_map.mp hv
    exact hit k hk u hu (by simpa using here.symm)

/-- The pixel is from a layer if that layer has a store there, and no layer above it has one. -/
theorem paintLayers_eq {before after : List ι} {i : ι} (hb : i ∉ before) (ha : i ∉ after) :
    (paintLayers f (before ++ i :: after) a).map Prod.fst = some i ↔
      (∃ w ∈ f i, w.1 = a) ∧ ∀ j ∈ after, ∀ w ∈ f j, w.1 ≠ a := by
  have split : layerStores f (before ++ i :: after) =
      layerStores f before ++ (layerStores f [i] ++ layerStores f after) := by
    simp [layerStores]
  rw [paintLayers, split, paint_append, paint_append]
  rcases paint_layerStores f (paint (paint (fun _ => none) 0 (layerStores f before)) 0
    (layerStores f [i])) after a with ⟨j, hj, w, hw, e, color⟩ | ⟨above, color⟩
  · rw [color]
    refine ⟨fun same => ?_, fun h => absurd e (h.2 j hj w hw)⟩
    cases same
    exact absurd hj ha
  rw [color]
  rcases paint_layerStores f (paint (fun _ => none) 0 (layerStores f before)) [i] a with
    ⟨j, hj, w, hw, e, color⟩ | ⟨none, color⟩
  · rw [color]
    cases List.mem_singleton.mp hj
    exact ⟨fun _ => ⟨⟨w, hw, e⟩, above⟩, fun _ => rfl⟩
  rw [color]
  refine ⟨fun same => ?_, fun h => ?_⟩
  · rcases paint_layerStores f (fun _ => Option.none) before a with ⟨j, hj, w, -, -, color⟩ | ⟨-, color⟩
    · rw [color] at same
      cases same
      exact absurd hj hb
    · rw [color] at same
      cases same
  · obtain ⟨w, hw, e⟩ := h.1
    exact absurd e (none i (by simp) w hw)

end Layers

/-! ## Copies -/

@[simp] theorem copyAt_cons (p : Int) (offsets : List Int) :
    copyAt m dst src (p :: offsets) = copyAt (update m (dst + p) (m (src + p))) dst src offsets :=
  rfl

/-- A copy reads the old pixel when no earlier store of the copy hit it. -/
theorem copyAt_eq {offsets : List Int} (h : ∀ o' ∈ offsets, src + o ≠ dst + o') :
    copyAt m dst src offsets (dst + o) =
      if o ∈ offsets then m (src + o) else m (dst + o) := by
  induction offsets generalizing m with
  | nil => rfl
  | cons p offsets ih =>
    rw [copyAt_cons, ih (fun o' ho' => h o' (.tail _ ho')),
      Function.update_of_ne (h p (.head _))]
    by_cases hp : o = p
    · subst hp
      simp
    · simp [hp]

theorem copyAt_other {offsets : List Int} (h : ∀ o ∈ offsets, a ≠ dst + o) :
    copyAt m dst src offsets a = m a := by
  induction offsets generalizing m with
  | nil => rfl
  | cons p offsets ih =>
    rw [copyAt_cons, ih (fun o ho => h o (.tail _ ho))]
    exact Function.update_of_ne (h p (.head _)) _ _

theorem move_inside (h₀ : 0 ≤ o) (h₁ : o < n) : move m dst src n (dst + o) = m (src + o) := by
  rw [move, if_pos (by omega)]
  congr 1
  omega

theorem move_outside (h : a < dst ∨ dst + n ≤ a) : move m dst src n a = m a := by
  rw [move, if_neg (by omega)]

theorem fill_inside {c : α} (h₀ : 0 ≤ o) (h₁ : o < n) : fill m dst n c (dst + o) = c := by
  rw [fill, if_pos (by omega)]

/-! ## Loops that break at an edge -/

/-- A loop over an ordered list that breaks at the first element past an edge
visits the elements in front of the edge. -/
theorem mem_takeWhile {β : Type*} {r : β → β → Prop} {p : β → Bool} {l : List β} {x : β}
    (hl : l.Pairwise r) (hp : ∀ a b, r a b → p b → p a) :
    x ∈ l.takeWhile p ↔ x ∈ l ∧ p x := by
  induction l with
  | nil => simp
  | cons a l ih =>
    obtain ⟨ha, hl⟩ := List.pairwise_cons.mp hl
    cases pa : p a with
    | true =>
      rw [List.takeWhile_cons_of_pos pa, List.mem_cons, List.mem_cons, ih hl]
      constructor
      · rintro (rfl | ⟨hx, px⟩)
        · exact ⟨.inl rfl, pa⟩
        · exact ⟨.inr hx, px⟩
      · rintro ⟨rfl | hx, px⟩
        · exact .inl rfl
        · exact .inr ⟨hx, px⟩
    | false =>
      rw [List.takeWhile_cons_of_neg (by simp [pa])]
      constructor
      · intro h
        cases h
      · rintro ⟨hx, px⟩
        obtain rfl | hx := List.mem_cons.mp hx
        · rw [pa] at px
          cases px
        · rw [hp a x (ha x hx) px] at pa
          cases pa

theorem pairwise_range (a b : Int) : (Int.range a b).Pairwise (· < ·) := by
  rw [Int.range, List.pairwise_map]
  refine List.pairwise_lt_range.imp ?_
  intro i j h
  omega

/-- The same for a loop over an interval. -/
theorem mem_takeWhile_range {a b c edge i : Int} :
    i ∈ (Int.range a b).takeWhile (fun i => c + i < edge) ↔ a ≤ i ∧ i < b ∧ c + i < edge := by
  rw [mem_takeWhile (pairwise_range a b), Int.mem_range_iff]
  · simp only [decide_eq_true_eq, and_assoc]
  · intro i j h hj
    simp only [decide_eq_true_eq] at hj ⊢
    omega

end Canvas
