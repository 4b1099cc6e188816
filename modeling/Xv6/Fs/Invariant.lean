import Xv6.Fs.Alloc

/-!
# The inode table and the disk

Between operations the copies of inodes in memory are those on the disk, and the table has one
entry for an inode (`Inv`).  While a function works on an inode its copy is ahead of the disk
(`Dirty`), until `iupdate` stores it.
-/

namespace Xv6.Fs

open Bytes Hoare Census

variable {sb : Superblock} {s s' s'' : State} {ip e : Ptr} {b i k n : Nat} {m : Disk}
  {E : Stop → Prop} {clean : Ptr → Prop}

/-- The file of each inode. -/
def files (sb : Superblock) (s : State) : Nat → Option File :=
  filesIn sb s.disk (inodeAt sb s.disk)

/-- The entries of the inode table, those in `clean` with what the disk has. -/
structure Table (sb : Superblock) (s : State) (clean : Ptr → Prop) : Prop where
  synced : ∀ e, clean e → 0 < (s.itable e).ref → (s.itable e).valid →
    (s.itable e).inum < sb.ninodes ∧ (s.itable e).node = inodeAt sb s.disk (s.itable e).inum
  unique : ∀ e e', 0 < (s.itable e).ref → 0 < (s.itable e').ref →
    (s.itable e).inum = (s.itable e').inum → e = e'
  dev : ∀ e, 0 < (s.itable e).ref → (s.itable e).dev = ROOTDEV
  idle : ∀ e, (s.itable e).ref = 0 → (s.itable e).locked = false

/-- Between operations. -/
structure Inv (sb : Superblock) (s : State) : Prop where
  blocks : Blocks sb s.disk (inodeAt sb s.disk)
  table : Table sb s fun _ => True

/-- The entry of an inode that has been read from the disk. -/
structure Loaded (s : State) (ip : Ptr) : Prop where
  ref : 0 < (s.itable ip).ref
  valid : (s.itable ip).valid

/-- The copy of an inode in memory is ahead of the disk.  Its size counts as `n`. -/
structure Dirty (sb : Superblock) (s : State) (ip : Ptr) (n : Nat) : Prop extends
    Open sb s ip n, Loaded s ip where
  table : Table sb s (· ≠ ip)

/-- Of the table only the copy of the inode in `ip` changed. -/
structure NodeOnly (s s' : State) (ip : Ptr) : Prop where
  itable : ∃ d, s'.itable = Function.update s.itable ip { s.itable ip with node := d }
  ops : s'.ops = s.ops

theorem NodeOnly.refl (s : State) (ip : Ptr) : NodeOnly s s ip :=
  ⟨⟨(s.itable ip).node, (Function.update_eq_self ip s.itable).symm⟩, rfl⟩

theorem NodeOnly.trans (h : NodeOnly s s' ip) (h' : NodeOnly s' s'' ip) : NodeOnly s s'' ip := by
  obtain ⟨d, hd⟩ := h.itable
  obtain ⟨d', hd'⟩ := h'.itable
  refine ⟨⟨d', ?_⟩, h'.ops.trans h.ops⟩
  rw [hd', hd, Function.update_idem, Function.update_self]

theorem Wrote.nodeOnly (h : Wrote s s') (ip : Ptr) : NodeOnly s s' ip :=
  ⟨⟨(s.itable ip).node, by rw [h.itable, Function.update_eq_self]⟩, h.ops⟩

theorem Mapped.nodeOnly (h : Mapped sb s s' ip) : NodeOnly s s' ip := by
  obtain ⟨a, ha⟩ := h.itable
  exact ⟨⟨_, ha⟩, h.ops⟩

theorem NodeOnly.other (h : NodeOnly s s' ip) (he : e ≠ ip) : s'.itable e = s.itable e := by
  obtain ⟨d, hd⟩ := h.itable
  rw [hd, Function.update_of_ne he]

/-- The fields of an entry that are not the copy. -/
theorem NodeOnly.fields (h : NodeOnly s s' ip) (e : Ptr) : (s'.itable e).inum = (s.itable e).inum ∧
    (s'.itable e).dev = (s.itable e).dev ∧ (s'.itable e).ref = (s.itable e).ref ∧
    (s'.itable e).valid = (s.itable e).valid ∧ (s'.itable e).locked = (s.itable e).locked := by
  obtain ⟨d, hd⟩ := h.itable
  rw [hd]
  by_cases he : e = ip
  · subst he
    rw [Function.update_self]
    exact ⟨rfl, rfl, rfl, rfl, rfl⟩
  · rw [Function.update_of_ne he]
    exact ⟨rfl, rfl, rfl, rfl, rfl⟩

theorem NodeOnly.loaded (h : NodeOnly s s' ip) (hl : Loaded s e) : Loaded s' e := by
  obtain ⟨-, -, hr, hv, -⟩ := h.fields e
  exact ⟨hr ▸ hl.ref, hv ▸ hl.valid⟩

/-- The other inodes on the disk are the same. -/
theorem Table.nodeOnly (h : Table sb s (· ≠ ip)) (hn : NodeOnly s s' ip)
    (href : 0 < (s.itable ip).ref)
    (hi : ∀ i < sb.ninodes, i ≠ (s.itable ip).inum → inodeAt sb s'.disk i = inodeAt sb s.disk i) :
    Table sb s' (· ≠ ip) := by
  refine ⟨fun e he hr hv => ?_, fun e e' hr hr' heq => ?_, fun e hr => ?_, fun e hr => ?_⟩
  · rw [hn.other he] at hr hv ⊢
    obtain ⟨h1, h2⟩ := h.synced e he hr hv
    exact ⟨h1, h2.trans (hi _ h1 fun heq => he (h.unique e ip hr href heq)).symm⟩
  · obtain ⟨h1, -, h3, -⟩ := hn.fields e
    obtain ⟨h1', -, h3', -⟩ := hn.fields e'
    rw [h3] at hr
    rw [h3'] at hr'
    rw [h1, h1'] at heq
    exact h.unique e e' hr hr' heq
  · obtain ⟨-, h2, h3, -⟩ := hn.fields e
    rw [h3] at hr
    rw [h2]
    exact h.dev e hr
  · obtain ⟨-, -, h3, -, h5⟩ := hn.fields e
    rw [h3] at hr
    rw [h5]
    exact h.idle e hr

theorem Table.mono {clean' : Ptr → Prop} (h : Table sb s clean) (hc : ∀ e, clean' e → clean e) :
    Table sb s clean' := ⟨fun e he => h.synced e (hc e he), h.unique, h.dev, h.idle⟩

/-! ## From the disk to memory and back -/

theorem Dinode.setSize_size (d : Dinode) : d.setSize d.size.toNat = d := by
  rw [Dinode.setSize, UInt32.ofNat_toNat]

theorem Inv.node (h : Inv sb s) (hl : Loaded s ip) : (s.itable ip).inum < sb.ninodes ∧
    (s.itable ip).node = inodeAt sb s.disk (s.itable ip).inum :=
  h.table.synced ip trivial hl.ref hl.valid

theorem Inv.opened (h : Inv sb s) (hl : Loaded s ip) :
    opened sb s ip (s.itable ip).node.size.toNat = inodeAt sb s.disk := by
  rw [Fs.opened, Dinode.setSize_size, (h.node hl).2, Function.update_eq_self]

theorem Inv.openFiles (h : Inv sb s) (hl : Loaded s ip) :
    openFiles sb s ip (s.itable ip).node.size.toNat = files sb s := by
  rw [Fs.openFiles, h.opened hl, files]

theorem Inv.dirty (h : Inv sb s) (hl : Loaded s ip) (ht : (s.itable ip).node.type ≠ 0) :
    Dirty sb s ip (s.itable ip).node.size.toNat :=
  ⟨⟨(h.node hl).1, ht, by rw [h.opened hl]; exact h.blocks⟩, hl, h.table.mono fun _ _ => trivial⟩

/-- The copy is stored, and the disk has it. -/
theorem iupdate_spec (hE : ∀ l, E ⟨.tooBig, l⟩) (ho : 0 < s.ops.outstanding)
    (hlt : (s.itable ip).inum < sb.ninodes)
    (hb : Blocks sb s.disk (Function.update (inodeAt sb s.disk) (s.itable ip).inum
      (s.itable ip).node)) (ht : Table sb s (· ≠ ip)) (href : 0 < (s.itable ip).ref) :
    wp (iupdate sb ip) (fun _ s' => Inv sb s' ∧ Wrote s s' ∧
      freeBlocks sb s'.disk = freeBlocks sb s.disk ∧ files sb s' =
        filesIn sb s.disk (Function.update (inodeAt sb s.disk) (s.itable ip).inum
          (s.itable ip).node)) E s := by
  rw [iupdate, wp_bind, wp_inode, wp_bind, wp_bread]
  refine (store_spec hE ho _).mono fun _ s' hs => ?_
  have hlt' := iblock_lt_data hlt
  have hbits := not_bits_iblock hlt
  have hinodes : inodeAt sb s'.disk = Function.update (inodeAt sb s.disk) (s.itable ip).inum
      (s.itable ip).node := by
    funext j
    rw [hs.2, inodeAt_update, Function.update_apply]
  have hbit : ∀ c < sb.size, bitAt sb s'.disk c = bitAt sb s.disk c := fun c hc =>
    bitAt_congr (fun x hx => by
      have hne : x ≠ sb.iblock (s.itable ip).inum := fun he => hbits (he ▸ hx)
      rw [hs.2, Function.update_of_ne hne]) hc
  have hdata : ∀ x, sb.datastart ≤ x → s'.disk x = s.disk x := fun x hx => by
    rw [hs.2, Function.update_of_ne (by omega)]
  obtain ⟨h1, h2⟩ := hb.congr hdata hbit
  have hn := hs.1.nodeOnly ip
  have htab := ht.nodeOnly hn href fun j _ hj => by rw [hinodes, Function.update_of_ne hj]
  refine ⟨⟨by rw [hinodes]; exact h1, ⟨fun e _ hr hv => ?_, htab.unique, htab.dev, htab.idle⟩⟩, hs.1,
    freeBlocks_congr hbit, by rw [files, hinodes, h2]⟩
  by_cases he : e = ip
  · subst he
    rw [hinodes, hs.1.itable, Function.update_self]
    exact ⟨hlt, rfl⟩
  · exact htab.synced e he hr hv

/-- The copy is stored with its size. -/
theorem Dirty.iupdate (h : Dirty sb s ip n) (hE : ∀ l, E ⟨.tooBig, l⟩) (ho : 0 < s.ops.outstanding)
    (hn : (s.itable ip).node.size.toNat = n) :
    wp (iupdate sb ip) (fun _ s' => Inv sb s' ∧ Wrote s s' ∧
      freeBlocks sb s'.disk = freeBlocks sb s.disk ∧ files sb s' = openFiles sb s ip n) E s := by
  have hb := h.blocks
  rw [openFiles]
  rw [opened, ← hn, Dinode.setSize_size] at hb ⊢
  exact iupdate_spec hE ho h.lt hb h.table h.ref

/-- The copy with the size that the caller has in mind. -/
def State.resize (s : State) (ip : Ptr) (n : Nat) : State :=
  s.setInode ip { s.itable ip with node := (s.itable ip).node.setSize n }

theorem State.resize_nodeOnly (s : State) (ip : Ptr) (n : Nat) : NodeOnly s (s.resize ip n) ip :=
  ⟨⟨_, rfl⟩, rfl⟩

theorem State.resize_node (s : State) (ip : Ptr) (n : Nat) :
    ((s.resize ip n).itable ip).node = (s.itable ip).node.setSize n := by
  rw [State.resize, itable_setInode, Function.update_self]

theorem opened_resize : opened sb (s.resize ip n) ip n = opened sb s ip n := by
  obtain ⟨hinum, -⟩ := (s.resize_nodeOnly ip n).fields ip
  rw [opened, opened, hinum, State.resize_node]
  rfl

theorem Dirty.resize (h : Dirty sb s ip n) : Dirty sb (s.resize ip n) ip n ∧
    Fs.openFiles sb (s.resize ip n) ip n = Fs.openFiles sb s ip n := by
  have hn := s.resize_nodeOnly ip n
  obtain ⟨hinum, -⟩ := hn.fields ip
  refine ⟨⟨⟨by rw [hinum]; exact h.lt, by rw [State.resize_node]; exact h.type, ?_⟩,
    hn.loaded h.toLoaded, h.table.nodeOnly hn h.ref fun _ _ _ => rfl⟩, ?_⟩
  · rw [opened_resize]
    exact h.blocks
  · rw [Fs.openFiles, opened_resize]
    rfl

end Xv6.Fs
