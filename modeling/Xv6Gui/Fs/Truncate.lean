import Xv6Gui.Fs.ByteArray

/-!
# Truncating a file

`itrunc` frees the blocks of a file that are listed in the inode and in its indirect
block.  It does not look at the double-indirect block: this one, the index blocks
below it and their blocks stay in the map and stay used.

`bfree` panics if a block is free already.  The blocks that are freed are used
before, and no block is freed twice, since blocks are not shared.  So the only thing
that can go wrong is that there is no room in the log.
-/

namespace Xv6Gui

open Effect

variable {v w : View} {ip : InodePtr}

/-! ## Freeing a block -/

namespace View

/-- `bfree` of block `b`. -/
def reset (v : View) (b : Nat) : View :=
  let bit := bblock b v.sb.ninodes
  v.write bit ((v.data bit).resetBit (b % bpb))

theorem reset_data {b z : Nat} (h : z ≠ bblock b v.sb.ninodes) : (v.reset b).data z = v.data z :=
  write_data_other h

theorem reset_sb (v : View) (b : Nat) : (v.reset b).sb = v.sb := by
  rw [sb, reset_data (one_lt_bblock ..).ne]
  rfl

/-- One bit is cleared. -/
theorem used_reset (v : View) (b x : Nat) : (v.reset b).used x = (v.used x && x != b) := by
  rw [used, used, reset_sb]
  by_cases same : bblock x v.sb.ninodes = bblock b v.sb.ninodes
  · have inside : b % bpb / 8 < bsize := by
      have : b % bpb < 4096 := Nat.mod_lt _ (by decide)
      have : bsize = 512 := rfl
      omega
    have index : (x % bpb != b % bpb) = (x != b) := by
      by_cases e : x = b
      · rw [e, bne_self_eq_false, bne_self_eq_false]
      · have div : x / bpb = b / bpb := by
          rw [bblock, bblock] at same
          omega
        have other : x % bpb ≠ b % bpb := by
          intro mod
          exact e (by rw [← Nat.div_add_mod x bpb, ← Nat.div_add_mod b bpb, div, mod])
        rw [bne_iff_ne.mpr other, bne_iff_ne.mpr e]
    have data : (v.reset b).data (bblock b v.sb.ninodes) = (v.data _).resetBit _ :=
      Function.update_self ..
    rw [same, data, Block.bit_resetBit inside, index]
  · have e : x ≠ b := fun e => same (by rw [e])
    rw [reset_data same, bne_iff_ne.mpr e, Bool.and_true]

end View

/-! ## The log below -/

/-- What is known of `log_write` for the sectors in `S`: it keeps `J`, or it panics
with an error in `E`. -/
def LogContract (J : Log → Prop) (S : Nat → Prop) (E : Halt → Prop) : Prop :=
  ∀ (m : LogState) b d, J m.log → S b →
    match m.logWrite b d with
    | .ok m' => J m'.log
    | .error message => E (.panic message)

/-- A panic of `log_write`. -/
def LogPanic (e : Halt) : Prop :=
  e = .panic "too big a transaction" ∨ e = .panic "log_write outside of trans"

instance : DecidablePred LogPanic := fun _ => inferInstanceAs (Decidable (_ ∨ _))

theorem logContract_any (S : Nat → Prop) : LogContract (fun _ => True) S LogPanic := by
  intro m b d _ _
  rw [LogState.logWrite]
  split
  · rename_i h
    split at h
    · cases h
    · split at h
      · cases h
      · trivial
  · rename_i message h
    split at h
    · cases h
      exact .inl rfl
    · split at h
      · cases h
        exact .inr rfl
      · cases h

/-- The view of a state and a fact about its log. -/
def Fs.At (v : View) (J : Log → Prop) (s : Fs) : Prop := s.view = v ∧ J s.log.log

section

variable {J : Log → Prop} {S : Nat → Prop} {E : Halt → Prop} (contract : LogContract J S E)

theorem bread_triple (b : Nat) :
    Triple (Fs.At v J) (bread b) (fun d t => d = v.data b ∧ Fs.At v J t) E := by
  rintro s ⟨rfl, hJ⟩
  obtain ⟨t, run, reads⟩ := bread_reads s b
  rw [run]
  exact ⟨rfl, reads.view, by rwa [reads.log]⟩

theorem setInode_triple (f : Inode → Inode) :
    Triple (Fs.At v J) (setInode ip f) (fun _ => Fs.At (v.setInode ip f) J) E := by
  rintro s ⟨rfl, hJ⟩
  exact ⟨rfl, hJ⟩

include contract

theorem logWrite_triple {b : Nat} (hb : S b) (d : Block) :
    Triple (Fs.At v J) (logWrite b d) (fun _ => Fs.At (v.write b d) J) E := by
  rintro s ⟨rfl, hJ⟩
  have keeps := contract s.log b d hJ hb
  cases run : (logWrite b d).run s with
  | error e =>
    have step : logWrite b d s = .error e := run
    rw [logWrite] at step
    split at step
    · rename_i message hm
      cases step
      rwa [hm] at keeps
    · cases step
  | ok r =>
    refine ⟨logWrite_ok run, ?_⟩
    have step : logWrite b d s = .ok r := run
    rw [logWrite] at step
    split at step
    · cases step
    · rename_i log hm
      cases step
      rwa [hm] at keeps

theorem bfree_triple {b : Nat} (hb : S (bblock b v.sb.ninodes)) (used : v.used b = true) :
    Triple (Fs.At v J) (bfree b) (fun _ => Fs.At (v.reset b) J) E := by
  have bit : (v.data (bblock b v.sb.ninodes)).bit (b % bpb) = true := used
  refine Triple.bind (Q := fun sb t => sb = v.sb ∧ Fs.At v J t) ?_ fun sb => Triple.known ?_
  · refine Triple.bind (bread_triple 1) fun bp => Triple.pure ?_
    rintro s ⟨rfl, at_⟩
    exact ⟨rfl, at_⟩
  · rintro rfl
    refine Triple.bind (bread_triple (bblock b v.sb.ninodes)) fun bp => Triple.known ?_
    rintro rfl
    rw [if_pos bit]
    exact logWrite_triple contract hb _

theorem iupdate_triple (hb : S (iblock (v.icache ip).inum)) :
    Triple (Fs.At v J) (iupdate ip) (fun _ => Fs.At (v.sync ip) J) E := by
  refine Triple.get_bind ?_
  rintro s ⟨rfl, hJ⟩
  refine Triple.pre (P := Fs.At s.view J) ?_ (by rintro _ rfl; exact ⟨rfl, hJ⟩)
  refine Triple.bind (bread_triple _) fun bp => Triple.known ?_
  rintro rfl
  exact logWrite_triple contract hb _

end

/-! ## The loops -/

/-- The blocks in `F` have been freed and the addresses in `A` cleared. -/
structure View.Truncating (v : View) (ip : InodePtr) (F : Finset Nat)
    (A : Finset (Fin (ndirect + 2))) (w : View) : Prop where
  sb : w.sb = v.sb
  data : ∀ z, z < v.sb.ninodes / ipb + 3 ∨ v.dataStart ≤ z → w.data z = v.data z
  used : ∀ b, w.used b = (v.used b && !decide (b ∈ F))
  other : ∀ ip' ≠ ip, w.icache ip' = v.icache ip'
  inode : w.icache ip =
    { v.icache ip with addrs := fun k => if k ∈ A then 0 else (v.icache ip).addrs k }
  ftable : w.ftable = v.ftable
  ops : w.ops = v.ops
  logged : ∀ z ∈ w.logged, z ∈ v.logged ∨ z < v.dataStart

namespace View.Truncating

variable {F : Finset Nat} {A : Finset (Fin (ndirect + 2))} {b : Nat} {k : Fin (ndirect + 2)}

theorem start (v : View) (ip : InodePtr) : v.Truncating ip ∅ ∅ v :=
  ⟨rfl, fun _ _ => rfl, by simp, fun _ _ => rfl, by simp, rfl, rfl, fun _ => .inl⟩

theorem free (h : v.Truncating ip F A w) (hb : b < v.sb.size) :
    v.Truncating ip (insert b F) A (w.reset b) := by
  have bit : bblock b w.sb.ninodes < v.dataStart := by
    rw [h.sb]
    exact bblock_lt hb
  have low : v.sb.ninodes / ipb + 3 ≤ bblock b w.sb.ninodes := by
    rw [h.sb]
    exact le_bblock ..
  refine ⟨by rw [reset_sb, h.sb], ?_, ?_, h.other, h.inode, h.ftable, h.ops, ?_⟩
  · intro z hz
    rw [reset_data (by omega), h.data z hz]
  · intro x
    rw [used_reset, h.used, Bool.and_assoc]
    congr 1
    by_cases e : x = b
    · simp [e]
    · simp [e]
  · intro z hz
    obtain rfl | hz := Finset.mem_insert.mp hz
    · exact .inr bit
    · exact h.logged z hz

theorem clear (h : v.Truncating ip F A w) (k : Fin (ndirect + 2)) :
    v.Truncating ip F (insert k A) (w.setAddr ip k 0) := by
  refine ⟨h.sb, h.data, h.used, ?_, ?_, h.ftable, h.ops, h.logged⟩
  · intro ip' ne
    rw [setAddr, setInode_icache_of_ne ne, h.other ip' ne]
  · rw [setAddr, setInode_icache, h.inode]
    congr 2
    funext l
    by_cases e : l = k
    · rw [e, Function.update_self, if_pos (Finset.mem_insert_self ..)]
    · rw [Function.update_of_ne e]
      simp [e]

/-- An address without a block counts as cleared. -/
theorem skip (h : v.Truncating ip F A w) (zero : (v.icache ip).addrs k = 0) :
    v.Truncating ip F (insert k A) w := by
  refine ⟨h.sb, h.data, h.used, h.other, ?_, h.ftable, h.ops, h.logged⟩
  have same : (fun l => if l ∈ A then 0 else (v.icache ip).addrs l) =
      fun l => if l ∈ insert k A then 0 else (v.icache ip).addrs l := by
    funext l
    by_cases e : l = k
    · rw [e, if_pos (Finset.mem_insert_self ..), zero, ite_self]
    · simp [e]
  rw [h.inode, same]

theorem addr_of_notMem (h : v.Truncating ip F A w) (hk : k ∉ A) :
    (w.icache ip).addrs k = (v.icache ip).addrs k := by
  rw [h.inode]
  exact if_neg hk

end View.Truncating

/-- The blocks that some entries of a table of block numbers list. -/
def listed {κ : Type} (entry : κ → Nat) (ks : List κ) : Finset Nat :=
  (ks.map entry).toFinset.erase 0

section

variable {κ : Type} {entry : κ → Nat} {ks : List κ} {k : κ} {b : Nat}

theorem mem_listed : b ∈ listed entry ks ↔ b ≠ 0 ∧ ∃ k ∈ ks, entry k = b := by
  simp [listed]

theorem listed_snoc_zero (h : entry k = 0) : listed entry (ks ++ [k]) = listed entry ks := by
  ext b
  simp only [mem_listed, List.mem_append, List.mem_singleton, or_and_right, exists_or,
    exists_eq_left, h]
  constructor
  · rintro ⟨ne, there | zero⟩
    · exact ⟨ne, there⟩
    · exact absurd zero.symm ne
  · rintro ⟨ne, there⟩
    exact ⟨ne, .inl there⟩

theorem listed_snoc (h : entry k ≠ 0) :
    listed entry (ks ++ [k]) = insert (entry k) (listed entry ks) := by
  ext b
  simp only [mem_listed, List.mem_append, List.mem_singleton, or_and_right, exists_or,
    exists_eq_left, Finset.mem_insert]
  constructor
  · rintro ⟨ne, there | e⟩
    · exact .inr ⟨ne, there⟩
    · exact .inl e.symm
  · rintro (rfl | ⟨ne, there⟩)
    · exact ⟨h, .inr rfl⟩
    · exact ⟨ne, .inl there⟩

end

section

variable {J : Log → Prop} {S : Nat → Prop} {E : Halt → Prop} {top : Nat}
  {F : Finset Nat} {A : Finset (Fin (ndirect + 2))}

/-- A state in which `itrunc` has come some way. -/
def Fs.Truncating (v : View) (ip : InodePtr) (J : Log → Prop) (F : Finset Nat)
    (A : Finset (Fin (ndirect + 2))) (s : Fs) : Prop :=
  v.Truncating ip F A s.view ∧ J s.log.log

variable (contract : LogContract J S E) (bits : ∀ b < v.sb.size, S (bblock b v.sb.ninodes))

theorem clearAddr_step (k : Fin (ndirect + 2)) :
    Triple (Fs.Truncating v ip J F A) (clearAddr ip k)
      (fun _ => Fs.Truncating v ip J F (insert k A)) E := by
  rintro s ⟨trunc, hJ⟩
  exact ⟨trunc.clear k, hJ⟩

include contract bits

/-- A block that was used at first and has not been freed yet is freed. -/
theorem bfree_step {b : Nat} (size : b < v.sb.size) (used : v.used b = true) (fresh : b ∉ F) :
    Triple (Fs.Truncating v ip J F A) (bfree b)
      (fun _ => Fs.Truncating v ip J (insert b F) A) E := by
  rintro s ⟨trunc, hJ⟩
  have still : s.view.used b = true := by
    rw [trunc.used, used]
    simp [fresh]
  have bit : S (bblock b s.view.sb.ninodes) := by
    rw [trunc.sb]
    exact bits b size
  have step := bfree_triple contract bit still
  refine step.post ?_ s ⟨rfl, hJ⟩
  rintro _ t ⟨view, hJ⟩
  refine ⟨?_, hJ⟩
  rw [view]
  exact trunc.free size

/-- The blocks that an index block lists are freed. -/
theorem bfreeEntries_triple {d : Block}
    (entries : ∀ j < nindirect, d.word j ≠ 0 →
      d.word j < v.sb.size ∧ v.used (d.word j) = true ∧ d.word j ∉ F ∧
        ∀ j' < nindirect, d.word j' = d.word j → j' = j) :
    Triple (Fs.Truncating v ip J F A) (bfreeEntries d)
      (fun _ => Fs.Truncating v ip J (F ∪ listed d.word (List.range nindirect)) A) E := by
  suffices loop : Triple (Fs.Truncating v ip J (F ∪ listed d.word []) A) (bfreeEntries d)
      (fun _ => Fs.Truncating v ip J (F ∪ listed d.word (List.range nindirect)) A) E by
    simpa [listed] using loop
  refine Triple.forM (I := fun done => Fs.Truncating v ip J (F ∪ listed d.word done) A) ?_
  intro done j rest e
  have mem : ∀ j' ∈ done ++ [j], j' < nindirect := by
    intro j' hj'
    rw [← List.mem_range, e, List.append_cons]
    exact List.mem_append_left _ hj'
  have new : j ∉ done := by
    have nodup := List.nodup_range (n := nindirect)
    rw [e, List.nodup_middle] at nodup
    exact fun hj => (List.nodup_cons.mp nodup).1 (List.mem_append_left _ hj)
  have hj := mem j (by simp)
  split
  · rename_i ne
    obtain ⟨size, used, fresh, once⟩ := entries j hj ne
    rw [listed_snoc ne, Finset.union_insert]
    refine bfree_step contract bits size used ?_
    intro freed
    obtain freed | freed := Finset.mem_union.mp freed
    · exact fresh freed
    · obtain ⟨_, j', hj', same⟩ := mem_listed.mp freed
      exact new (once j' (mem j' (List.mem_append_left _ hj')) same ▸ hj')
  · rename_i zero
    rw [listed_snoc_zero (by simpa using zero)]
    exact Triple.pure fun _ h => h

/-- The direct addresses. -/
def directs : List (Fin (ndirect + 2)) := (List.finRange ndirect).map (Fin.castAdd 2)

/-- The blocks in an inode are used, and no two addresses have the same. -/
def AddrsOwned (v : View) (ip : InodePtr) : Prop :=
  ∀ k, (v.icache ip).addrs k ≠ 0 →
    (v.icache ip).addrs k < v.sb.size ∧ v.used ((v.icache ip).addrs k) = true ∧
      ∀ l, (v.icache ip).addrs l = (v.icache ip).addrs k → l = k

theorem itruncDirect_triple (addrs : AddrsOwned v ip) :
    Triple (Fs.Truncating v ip J ∅ ∅) (itruncDirect ip)
      (fun _ => Fs.Truncating v ip J (listed (v.icache ip).addrs directs) directs.toFinset) E := by
  refine Triple.forM (I := fun done => Fs.Truncating v ip J
    (listed (v.icache ip).addrs (done.map (Fin.castAdd 2))) (done.map (Fin.castAdd 2)).toFinset) ?_
  intro done i rest e
  have new : Fin.castAdd 2 i ∉ done.map (Fin.castAdd 2) := by
    have nodup := List.nodup_finRange ndirect
    rw [e, List.nodup_middle] at nodup
    intro hi
    obtain ⟨i', hi', same⟩ := List.mem_map.mp hi
    have same : i' = i := Fin.ext (by simpa using congrArg Fin.val same)
    exact (List.nodup_cons.mp nodup).1 (List.mem_append_left _ (same ▸ hi'))
  have cleared : ((done ++ [i]).map (Fin.castAdd 2)).toFinset =
      insert (Fin.castAdd 2 i) (done.map (Fin.castAdd 2)).toFinset := by
    ext k
    simp [eq_comm]
  rw [cleared, List.map_append, List.map_singleton]
  generalize Fin.castAdd 2 i = k at new ⊢
  generalize done.map (Fin.castAdd 2) = ks at new ⊢
  refine Triple.get_bind ?_
  rintro s ⟨trunc, hJ⟩
  have here : (s.icache ip).addrs k = (v.icache ip).addrs k :=
    trunc.addr_of_notMem (by simpa using new)
  have pre : ∀ t, t = s → Fs.Truncating v ip J (listed (v.icache ip).addrs ks) ks.toFinset t := by
    rintro _ rfl
    exact ⟨trunc, hJ⟩
  rw [here]
  dsimp only
  split
  · rename_i ne
    obtain ⟨size, used, once⟩ := addrs k ne
    have fresh : (v.icache ip).addrs k ∉ listed (v.icache ip).addrs ks := by
      intro freed
      obtain ⟨_, l, hl, same⟩ := mem_listed.mp freed
      exact new (once l same ▸ hl)
    rw [listed_snoc ne]
    exact Triple.bind ((bfree_step contract bits size used fresh).pre pre)
      fun _ => clearAddr_step k
  · rename_i zero
    have zero : (v.icache ip).addrs k = 0 := by simpa using zero
    rw [listed_snoc_zero zero]
    refine Triple.pure ?_
    rintro _ rfl
    exact ⟨trunc.skip zero, hJ⟩

/-- The indirect address. -/
def indirect : Fin (ndirect + 2) := ⟨ndirect, ndirect_lt⟩

/-- The address of the double indirect block. -/
def doubleIndirect : Fin (ndirect + 2) := ⟨ndirect + 1, succ_ndirect_lt⟩

omit contract bits in
theorem indirect_notMem : indirect ∉ directs := by
  intro mem
  obtain ⟨i, _, e⟩ := List.mem_map.mp mem
  have : i.val = ndirect := congrArg Fin.val e
  omega

/-- The blocks below the indirect block, and this one. -/
def indirectBlocks (v : View) (ip : InodePtr) : Finset Nat :=
  if (v.icache ip).addrs indirect = 0 then ∅ else
    insert ((v.icache ip).addrs indirect)
      (listed (v.data ((v.icache ip).addrs indirect)).word (List.range nindirect))

/-- The entries of the indirect block are used and different, also from the blocks in
the inode. -/
def EntriesOwned (v : View) (ip : InodePtr) : Prop :=
  let x := (v.icache ip).addrs indirect
  x ≠ 0 → v.dataStart ≤ x ∧ ∀ j < nindirect, (v.data x).word j ≠ 0 →
    (v.data x).word j < v.sb.size ∧ v.used ((v.data x).word j) = true ∧
      (∀ k, (v.icache ip).addrs k ≠ (v.data x).word j) ∧
        ∀ j' < nindirect, (v.data x).word j' = (v.data x).word j → j' = j

theorem itruncIndirect_triple (addrs : AddrsOwned v ip) (entries : EntriesOwned v ip) :
    Triple (Fs.Truncating v ip J (listed (v.icache ip).addrs directs) directs.toFinset)
      (itruncIndirect ip)
      (fun _ => Fs.Truncating v ip J
        (listed (v.icache ip).addrs directs ∪ indirectBlocks v ip)
        (insert indirect directs.toFinset)) E := by
  refine Triple.get_bind ?_
  rintro s ⟨trunc, hJ⟩
  have here : (s.icache ip).addrs indirect = (v.icache ip).addrs indirect :=
    trunc.addr_of_notMem (by simpa using indirect_notMem)
  have pre : ∀ t, t = s → Fs.At s.view J t := by
    rintro _ rfl
    exact ⟨rfl, hJ⟩
  have index : (⟨ndirect, by decide⟩ : Fin (ndirect + 2)) = indirect := rfl
  rw [index, here, indirectBlocks]
  dsimp only
  split
  · rename_i ne
    obtain ⟨size, used, once⟩ := addrs indirect ne
    obtain ⟨start, entries⟩ := entries ne
    rw [Finset.union_insert]
    have freeEntries : Triple
        (Fs.Truncating v ip J (listed (v.icache ip).addrs directs) directs.toFinset)
        (bfreeEntries (v.data ((v.icache ip).addrs indirect)))
        (fun _ => Fs.Truncating v ip J (listed (v.icache ip).addrs directs ∪
          listed (v.data ((v.icache ip).addrs indirect)).word (List.range nindirect))
          directs.toFinset) E := by
      refine bfreeEntries_triple contract bits ?_
      intro j hj ne'
      obtain ⟨size, used, other, once⟩ := entries j hj ne'
      refine ⟨size, used, ?_, once⟩
      intro freed
      obtain ⟨_, k, _, same⟩ := mem_listed.mp freed
      exact other k same
    refine Triple.bind ((bread_triple _).pre pre) fun bp => Triple.known ?_
    rw [trunc.data _ (.inr start)]
    rintro rfl
    refine Triple.bind (freeEntries.pre ?_) fun _ =>
      Triple.bind (bfree_step contract bits size used ?_) fun _ => clearAddr_step indirect
    · rintro t ⟨view, hJ⟩
      refine ⟨?_, hJ⟩
      rw [view]
      exact trunc
    · intro freed
      obtain freed | freed := Finset.mem_union.mp freed
      · obtain ⟨_, k, hk, same⟩ := mem_listed.mp freed
        exact indirect_notMem (once k same ▸ hk)
      · obtain ⟨ne', j, hj, same⟩ := mem_listed.mp freed
        have other := (entries j (List.mem_range.mp hj) (by rwa [same])).2.2.1
        exact other indirect same.symm
  · rename_i zero
    have zero : (v.icache ip).addrs indirect = 0 := by simpa using zero
    rw [if_pos zero, Finset.union_empty]
    refine Triple.pure ?_
    rintro _ rfl
    exact ⟨trunc.skip zero, hJ⟩

/-- The blocks that `itrunc` frees. -/
def truncated (v : View) (ip : InodePtr) : Finset Nat :=
  listed (v.icache ip).addrs directs ∪ indirectBlocks v ip

/-- `itrunc`. -/
def View.Truncated (v : View) (ip : InodePtr) (w : View) : Prop :=
  ∃ u, v.Truncating ip (truncated v ip) (insert indirect directs.toFinset) u ∧
    w = u.store ip fun inode => { inode with size := 0 }

theorem itrunc_triple (addrs : AddrsOwned v ip) (entries : EntriesOwned v ip)
    (inode : S (iblock (v.icache ip).inum)) :
    Triple (Fs.At v J) (itrunc ip) (fun _ s => v.Truncated ip s.view ∧ J s.log.log) E := by
  refine Triple.bind ((itruncDirect_triple contract bits addrs).pre ?_) fun _ => ?_
  · rintro s ⟨rfl, hJ⟩
    exact ⟨.start .., hJ⟩
  · refine Triple.bind (itruncIndirect_triple contract bits addrs entries) fun _ => ?_
    rintro s ⟨trunc, hJ⟩
    refine (Triple.bind (setInode_triple _) fun _ => iupdate_triple contract ?_).post ?_ s ⟨rfl, hJ⟩
    · rw [View.setInode_icache, trunc.inode]
      exact inode
    · rintro _ t ⟨view, hJ⟩
      exact ⟨⟨s.view, trunc, view⟩, hJ⟩

end

/-! ## What is freed -/

namespace View

variable {top b : Nat}

variable {k : Fin (ndirect + 2)}

theorem InUse.node_addr (h : v.InUse top ip) :
    v.vol.node [(v.icache ip).inum, k.val] = some (.block b) ↔
      (v.icache ip).addrs k = b ∧ b ≠ 0 := by
  have type := h.coherent.type ip h.held.ref h.held.valid
  rw [Volume.node_addr, h.coherent.vol_inode h.held]
  exact and_iff_right type

theorem InUse.node_entry (h : v.InUse top ip) (ne : (v.icache ip).addrs indirect ≠ 0) {j : Nat}
    (hj : j < nindirect) :
    v.vol.node [(v.icache ip).inum, ndirect, j] = some (.block b) ↔
      (v.data ((v.icache ip).addrs indirect)).word j = b ∧ b ≠ 0 := by
  have parent := (h.node_addr (k := indirect)).mpr ⟨rfl, ne⟩
  have position : Position ((v.icache ip).inum :: [indirect.val] ++ [j]) :=
    ⟨le_rfl, by decide, hj⟩
  exact Volume.node_entry parent position

theorem InUse.addrsOwned (h : v.InUse top ip) : AddrsOwned v ip := by
  intro k ne
  have node := (h.node_addr (k := k)).mpr ⟨rfl, ne⟩
  obtain ⟨_, lt, used⟩ := h.owned.mapped _ _ node
  refine ⟨lt.trans_le h.owned.top_le, used, ?_⟩
  intro l same
  have other := (h.node_addr (k := l)).mpr ⟨same, ne⟩
  have position := h.owned.separate _ _ _ other node
  simp only [List.cons.injEq, and_true, true_and] at position
  exact Fin.ext position

theorem InUse.entriesOwned (h : v.InUse top ip) : EntriesOwned v ip := by
  intro ne
  refine ⟨(h.owned.mapped _ _ ((h.node_addr (k := indirect)).mpr ⟨rfl, ne⟩)).1, ?_⟩
  intro j hj ne'
  have node := (h.node_entry ne hj).mpr ⟨rfl, ne'⟩
  obtain ⟨_, lt, used⟩ := h.owned.mapped _ _ node
  refine ⟨lt.trans_le h.owned.top_le, used, ?_, ?_⟩
  · intro k same
    have position := h.owned.separate _ _ _ ((h.node_addr (k := k)).mpr ⟨same, ne'⟩) node
    simp at position
  · intro j' hj' same
    have position := h.owned.separate _ _ _ ((h.node_entry ne hj').mpr ⟨same, ne'⟩) node
    simpa using position

theorem mem_directs : k ∈ directs ↔ k.val < ndirect := by
  constructor
  · intro hk
    obtain ⟨i, _, rfl⟩ := List.mem_map.mp hk
    exact i.isLt
  · intro lt
    exact List.mem_map.mpr ⟨⟨k.val, lt⟩, List.mem_finRange _, rfl⟩

/-- The blocks that are freed are those not at or below the double-indirect block. -/
theorem InUse.mem_truncated (h : v.InUse top ip) :
    b ∈ truncated v ip ↔
      ∃ k p, k ≠ ndirect + 1 ∧ v.vol.node ((v.icache ip).inum :: k :: p) = some (.block b) := by
  constructor
  · intro hb
    obtain hb | hb := Finset.mem_union.mp hb
    · obtain ⟨ne, k, hk, e⟩ := mem_listed.mp hb
      have := mem_directs.mp hk
      exact ⟨k, [], by omega, h.node_addr.mpr ⟨e, ne⟩⟩
    · rw [indirectBlocks] at hb
      split at hb
      · cases hb
      · rename_i ne
        obtain rfl | hb := Finset.mem_insert.mp hb
        · exact ⟨ndirect, [], by decide, (h.node_addr (k := indirect)).mpr ⟨rfl, ne⟩⟩
        · obtain ⟨ne', j, hj, e⟩ := mem_listed.mp hb
          exact ⟨ndirect, [j], by decide, (h.node_entry ne (List.mem_range.mp hj)).mpr ⟨e, ne'⟩⟩
  · rintro ⟨k, p, hk, node⟩
    have position := Volume.position_of_node node
    match p with
    | [] =>
      have inside : k < ndirect + 2 := position
      obtain ⟨e, ne⟩ := (h.node_addr (k := ⟨k, inside⟩)).mp node
      by_cases direct : k < ndirect
      · exact Finset.mem_union_left _
          (mem_listed.mpr ⟨ne, ⟨k, inside⟩, mem_directs.mpr direct, e⟩)
      · have index : (⟨k, inside⟩ : Fin (ndirect + 2)) = indirect := by
          refine Fin.ext ?_
          show k = ndirect
          omega
        rw [index] at e
        refine Finset.mem_union_right _ ?_
        rw [indirectBlocks, if_neg (by rwa [e]), ← e]
        exact Finset.mem_insert_self ..
    | [j] =>
      obtain ⟨low, high, hj⟩ := position
      obtain rfl : k = ndirect := by omega
      obtain ⟨c, parent⟩ := Volume.node_above (p := [ndirect]) (by simp) node
      obtain ⟨e, ne⟩ := (h.node_addr (k := indirect)).mp parent
      have ne : (v.icache ip).addrs indirect ≠ 0 := by rwa [e]
      obtain ⟨e', ne'⟩ := (h.node_entry ne hj).mp node
      refine Finset.mem_union_right _ ?_
      rw [indirectBlocks, if_neg ne]
      exact Finset.mem_insert_of_mem (mem_listed.mpr ⟨ne', j, List.mem_range.mpr hj, e'⟩)
    | [j, l] => exact absurd position.1 hk
    | j :: l :: m :: rest => exact absurd position id

/-- The inode after `itrunc`. -/
def emptied (inode : Inode) : Inode :=
  { inode with
    size := 0
    addrs := fun k => if k = doubleIndirect then inode.addrs k else 0 }

theorem mem_cleared :
    k ∈ insert indirect directs.toFinset ↔ k ≠ doubleIndirect := by
  rw [Finset.mem_insert, List.mem_toFinset, mem_directs, ne_eq, Fin.ext_iff, Fin.ext_iff]
  have := k.isLt
  show k.val = ndirect ∨ k.val < ndirect ↔ ¬ k.val = ndirect + 1
  omega

theorem InUse.emptied_fits (h : v.InUse top ip) : (emptied (v.icache ip)).toDinode.Fits := by
  have old := h.coherent.fits ip h.held.ref h.held.valid
  refine ⟨old.type, old.major, old.minor, old.nlink, Nat.two_pow_pos 32, ?_⟩
  intro k
  show (if k = doubleIndirect then (v.icache ip).addrs k else 0) < 2 ^ 32
  split
  · exact old.addrs k
  · decide

namespace Truncated

variable (h : v.InUse top ip) (trunc : v.Truncated ip w)

include trunc

theorem icache : w.icache ip = emptied (v.icache ip) := by
  obtain ⟨u, progress, rfl⟩ := trunc
  have same : (fun k => if k ∈ insert indirect directs.toFinset then 0 else (v.icache ip).addrs k) =
      fun k => if k = doubleIndirect then (v.icache ip).addrs k else 0 := by
    funext k
    by_cases e : k = doubleIndirect
    · rw [if_pos e, if_neg fun mem => mem_cleared.mp mem e]
    · rw [if_neg e, if_pos (mem_cleared.mpr e)]
  rw [store_icache, progress.inode, same]
  rfl

theorem other {ip' : InodePtr} (ne : ip' ≠ ip) : w.icache ip' = v.icache ip' := by
  obtain ⟨u, progress, rfl⟩ := trunc
  rw [store_icache_other ne, progress.other ip' ne]

theorem sb : w.sb = v.sb := by
  obtain ⟨u, progress, rfl⟩ := trunc
  rw [store_sb ⟨rfl, rfl, rfl⟩, progress.sb]

theorem dnode_other {i : Nat} (lt : i < v.sb.slots) (ne : i ≠ (v.icache ip).inum) :
    w.dnode i = v.dnode i := by
  obtain ⟨u, progress, rfl⟩ := trunc
  have inum : (u.icache ip).inum = (v.icache ip).inum := by rw [progress.inode]
  rw [store_dnode_other ⟨rfl, rfl, rfl⟩ (by rwa [inum]), dnode, dnode,
    progress.data _ (.inl (iblock_lt lt))]

include h

theorem data {z : Nat} (hz : v.dataStart ≤ z) : w.data z = v.data z := by
  have lt := iblock_lt_dataStart (h.coherent.inum ip h.held.ref)
  obtain ⟨u, progress, rfl⟩ := trunc
  have inum : (u.icache ip).inum = (v.icache ip).inum := by rw [progress.inode]
  rw [store_data ⟨rfl, rfl, rfl⟩ (by rw [inum]; omega), progress.data z (.inr hz)]

theorem used (b : Nat) : w.used b = (v.used b && !decide (b ∈ truncated v ip)) := by
  have lt := iblock_lt (h.coherent.inum ip h.held.ref)
  obtain ⟨u, progress, rfl⟩ := trunc
  have inum : (u.icache ip).inum = (v.icache ip).inum := by rw [progress.inode]
  rw [← progress.used]
  refine used_congr (store_sb ⟨rfl, rfl, rfl⟩) ?_ b
  intro z hz
  rw [progress.sb] at hz
  exact store_data ⟨rfl, rfl, rfl⟩ (by rw [inum]; omega)

theorem logged : ∀ z ∈ w.logged, z ∈ v.logged ∨ z < v.dataStart := by
  have lt := iblock_lt_dataStart (h.coherent.inum ip h.held.ref)
  obtain ⟨u, progress, rfl⟩ := trunc
  have inum : (u.icache ip).inum = (v.icache ip).inum := by rw [progress.inode]
  intro z hz
  rw [store_logged ⟨rfl, rfl, rfl⟩] at hz
  obtain rfl | hz := Finset.mem_insert.mp hz
  · rw [inum]
    exact .inr lt
  · exact progress.logged z hz

theorem dnode_self : w.dnode (v.icache ip).inum = (emptied (v.icache ip)).toDinode := by
  have new := icache trunc
  have fits := h.emptied_fits
  obtain ⟨u, progress, rfl⟩ := trunc
  have inum : (u.icache ip).inum = (v.icache ip).inum := by rw [progress.inode]
  rw [store_icache] at new
  rw [← inum, store_dnode_self ⟨rfl, rfl, rfl⟩ (by rw [new]; exact fits), new]

theorem held : w.Held ip := by
  have new := icache trunc
  exact ⟨by rw [new]; exact h.held.ref, by rw [new]; exact h.held.valid⟩

theorem coherent : w.Coherent := by
  have apart : ∀ ip' ≠ ip, 0 < (v.icache ip').ref →
      (v.icache ip').inum ≠ (v.icache ip).inum := by
    intro ip' ne href same
    exact ne (h.coherent.uniq ip' ip href h.held.ref same)
  refine h.coherent.update ip (sb trunc) (fun _ => other trunc) ?_ ?_ ?_ ?_
  · intro ip' ne href
    exact dnode_other trunc (h.coherent.inum ip' href) (apart ip' ne href)
  · rw [icache trunc]
    exact h.coherent.nonneg ip
  · rw [icache trunc]
    exact fun _ => ⟨h.coherent.inum ip h.held.ref, apart⟩
  · intro _
    rw [icache trunc]
    refine ⟨h.emptied_fits, h.coherent.type ip h.held.ref h.held.valid, ?_⟩
    rw [show (emptied (v.icache ip)).inum = (v.icache ip).inum from rfl, dnode_self h trunc]
    exact .refl _

theorem vol_inode (i : Nat) : w.vol.inode i =
    if i = (v.icache ip).inum then (emptied (v.icache ip)).toDinode else v.vol.inode i := by
  have new := icache trunc
  split
  · rename_i e
    have inode := (coherent h trunc).vol_inode (held h trunc)
    rw [new] at inode
    rw [e]
    exact inode
  · rename_i ne
    simp only [vol, sb trunc]
    split
    · rename_i lt
      refine current_of_slot (fun _ => other trunc) (fun _ => Ne.symm ne) ?_
        (dnode_other trunc lt ne)
      intro _
      rw [new]
      exact Ne.symm ne
    · rfl

/-- Blocks in the tree were there before, at the same position, which is not one that
is freed. -/
theorem node {q : List Nat} {b : Nat} (hq : w.vol.node q = some (.block b)) :
    v.vol.node q = some (.block b) ∧ b ∉ truncated v ip := by
  have type := h.coherent.type ip h.held.ref h.held.valid
  have old := h.coherent.vol_inode h.held
  have blocks := Volume.block_of_block (v := v.vol) (w := w.vol)
    (fun q b hq => data h trunc (h.owned.mapped q b hq).1) (by
      intro i k
      rw [vol_inode h trunc]
      split
      · rename_i e
        intro _ ne
        rw [e, old]
        refine ⟨type, ?_⟩
        have ne : (if k = doubleIndirect then (v.icache ip).addrs k else 0) ≠ 0 := ne
        show (v.icache ip).addrs k = if k = doubleIndirect then (v.icache ip).addrs k else 0
        split
        · rfl
        · rename_i other
          rw [if_neg other] at ne
          exact absurd rfl ne
      · exact fun type _ => ⟨type, rfl⟩)
  have before := blocks q b hq
  refine ⟨before, ?_⟩
  intro freed
  obtain ⟨k, p, hk, node⟩ := h.mem_truncated.mp freed
  rw [h.owned.separate _ _ _ before node] at hq
  -- the address above the block is cleared
  obtain ⟨y, hy⟩ := Volume.node_of_append (q := [(v.icache ip).inum, k]) hq
  have inside : k < ndirect + 2 := Volume.position_of_node hy
  obtain ⟨e, _⟩ | ⟨_, e, _⟩ | ⟨_, _, c, _, _, rfl⟩ := Volume.node_cases hy
  · cases e
  · cases e
  · obtain ⟨_, addr, ne⟩ := (Volume.node_addr (k := ⟨k, inside⟩)).mp hy
    rw [vol_inode h trunc, if_pos rfl] at addr
    have zero : (emptied (v.icache ip)).addrs ⟨k, inside⟩ = 0 :=
      if_neg fun e => hk (congrArg Fin.val e)
    exact ne (addr.symm.trans zero)

theorem inUse : w.InUse top ip := by
  refine ⟨?_, coherent h trunc, held h trunc⟩
  have start : w.dataStart = v.dataStart := by rw [dataStart, dataStart, sb trunc]
  refine ⟨by rw [sb trunc]; exact h.owned.top_le, ?_, ?_, ?_⟩
  · refine Volume.separate_of_blocks ?_
    intro q r b hq hr
    exact h.owned.separate q r _ (node h trunc hq).1 (node h trunc hr).1
  · intro q b hq
    obtain ⟨before, kept⟩ := node h trunc hq
    obtain ⟨low, high, hused⟩ := h.owned.mapped q b before
    rw [start, used h trunc, hused]
    exact ⟨low, high, by simp [kept]⟩
  · intro b hb
    rw [start]
    obtain ⟨size, clear⟩ := mem_free.mp hb
    rw [used h trunc] at clear
    by_cases freed : b ∈ truncated v ip
    · obtain ⟨k, p, _, before⟩ := h.mem_truncated.mp freed
      exact (h.owned.mapped _ b before).1
    · rw [sb trunc] at size
      exact h.owned.low b (mem_free.mpr ⟨size, by simpa [freed] using clear⟩)

end Truncated

end View

end Xv6Gui
