import SsuComputer.Xv6.FsBlocks

/-!
# SsuComputer.Xv6.FsDinode

Inodes on disk: `iupdate` and the reading of `ilock` are inverse to each other
(`readDinode_iupdate`), and a write of one inode leaves the others of its block.
-/

namespace SsuComputer
namespace Xv6

variable {sb : Superblock} {d d' : Dev} {ip : Inode} {i j k : Nat}

/-- The values that the fields of `struct dinode` can hold. -/
structure Inode.InRange (ip : Inode) : Prop where
  type : ip.type < 2 ^ 16
  major : ip.major < 2 ^ 16
  minor : ip.minor < 2 ^ 16
  nlink : ip.nlink < 2 ^ 16
  size : ip.size < 2 ^ 32
  addrs : ∀ k, ip.addrs k < 2 ^ 32
  last : ∀ k, 13 ≤ k → ip.addrs k = 0

theorem flatMap_piece {f : Nat → List Nat} {w n : Nat} (hf : ∀ k, (f k).length = w) (hk : k < n) :
    (((List.range n).flatMap f).drop (w * k)).take w = f k := by
  obtain ⟨r, rfl⟩ : ∃ r, n = k + (1 + r) := ⟨n - k - 1, by omega⟩
  have hlen : ((List.range k).flatMap f).length = w * k := by
    simp [List.length_flatMap, hf, Nat.mul_comm]
  rw [List.range_add, List.flatMap_append, ← hlen, List.drop_left, Nat.add_comm 1 r,
    List.range_succ_eq_map]
  simp only [List.map_cons, List.flatMap_cons, Nat.add_zero]
  exact List.take_left' (hf k)

theorem length_dinodeBytes : (dinodeBytes ip).length = 64 := by
  simp [dinodeBytes, List.length_flatMap]

theorem dinode_addr (hk : k < 13) :
    ((dinodeBytes ip).drop (12 + 4 * k)).take 4 = bytesLE 4 (ip.addrs k) := by
  rw [dinodeBytes, ← List.drop_drop]
  rw [List.drop_left' (by simp)]
  exact flatMap_piece (f := fun k => bytesLE 4 (ip.addrs k)) (fun _ => length_bytesLE) hk

/-- A field of the inode, read back. -/
theorem field_blit {m : Nat → Nat} {o w v : Nat} (hfit : k + w ≤ 64)
    (hpiece : ((dinodeBytes ip).drop k).take w = bytesLE w v) (hv : v < 256 ^ w) :
    getLE w (blit m o (dinodeBytes ip)) (o + k) = v := by
  rw [getLE, load_blit (by rw [length_dinodeBytes]; exact hfit), hpiece, ofLE_bytesLE hv]

/-- `ilock` reads what `iupdate` wrote. -/
theorem readDinode_iupdate (hip : ip.InRange) : readDinode sb (iupdate sb d i ip) i = ip := by
  have hself : (iupdate sb d i ip).block (IBLOCK sb i) =
      blit (d.block (IBLOCK sb i)) (dip i) (dinodeBytes ip) := Dev.log_write_self ..
  have htype : getLE 2 (blit (d.block (IBLOCK sb i)) (dip i) (dinodeBytes ip)) (dip i) = ip.type :=
    field_blit (k := 0) (by decide) rfl hip.type
  have hmajor := field_blit (m := d.block (IBLOCK sb i)) (o := dip i) (w := 2) (k := 2)
    (by decide) rfl hip.major
  have hminor := field_blit (m := d.block (IBLOCK sb i)) (o := dip i) (w := 2) (k := 4)
    (by decide) rfl hip.minor
  have hnlink := field_blit (m := d.block (IBLOCK sb i)) (o := dip i) (w := 2) (k := 6)
    (by decide) rfl hip.nlink
  have hsize := field_blit (m := d.block (IBLOCK sb i)) (o := dip i) (w := 4) (k := 8)
    (by decide) rfl hip.size
  have haddrs : (fun k => if k < 13 then
      getLE 4 (blit (d.block (IBLOCK sb i)) (dip i) (dinodeBytes ip)) (dip i + 12 + 4 * k)
      else 0) = ip.addrs := funext fun k => by
    by_cases hk : k < 13
    · rw [if_pos hk, Nat.add_assoc]
      exact field_blit (by omega) (dinode_addr hk) (hip.addrs k)
    · rw [if_neg hk, hip.last k (by omega)]
  simp only [readDinode, hself, htype, hmajor, hminor, hnlink, hsize, haddrs]

theorem readDinode_congr (h : ∀ x, dip i ≤ x → x < dip i + 64 →
    d'.block (IBLOCK sb i) x = d.block (IBLOCK sb i) x) :
    readDinode sb d' i = readDinode sb d i := by
  have hfield : ∀ w o, o + w ≤ 64 →
      getLE w (d'.block (IBLOCK sb i)) (dip i + o) = getLE w (d.block (IBLOCK sb i)) (dip i + o) :=
    fun w o ho => getLE_congr fun x hx hlt => h x (by omega) (by omega)
  have haddrs : (fun k => if k < 13 then getLE 4 (d'.block (IBLOCK sb i)) (dip i + 12 + 4 * k)
      else 0) = fun k => if k < 13 then getLE 4 (d.block (IBLOCK sb i)) (dip i + 12 + 4 * k)
      else 0 := funext fun k => by
    by_cases hk : k < 13
    · rw [if_pos hk, if_pos hk, Nat.add_assoc]
      exact hfield 4 _ (by omega)
    · rw [if_neg hk, if_neg hk]
  have htype := hfield 2 0 (by decide)
  rw [Nat.add_zero] at htype
  simp only [readDinode, htype, hfield 2 2 (by decide), hfield 2 4 (by decide),
    hfield 2 6 (by decide), hfield 4 8 (by decide), haddrs]

/-- The other inodes stay. -/
theorem readDinode_iupdate_of_ne (h : j ≠ i) :
    readDinode sb (iupdate sb d i ip) j = readDinode sb d j := by
  refine readDinode_congr fun x hx hlt => ?_
  by_cases hb : IBLOCK sb j = IBLOCK sb i
  · have hmod : j % IPB ≠ i % IPB := fun hmod => h (by
      have hdiv : j / IPB = i / IPB := Nat.add_right_cancel hb
      rw [← Nat.div_add_mod j IPB, ← Nat.div_add_mod i IPB, hdiv, hmod])
    rw [hb]
    change (d.log_write _ _).block _ x = _
    rw [Dev.log_write_self]
    refine blit_of_not_mem ?_
    rw [length_dinodeBytes]
    unfold dip at *
    omega
  · exact congrFun (Dev.log_write_of_ne hb _) x

theorem getLE_lt {w a : Nat} {m : Nat → Nat} : getLE w m a < 256 ^ w := by
  have hof : ∀ xs : List Nat, ofLE xs < 256 ^ xs.length := fun xs => by
    induction xs with
    | nil => exact Nat.one_pos
    | cons x xs ih =>
      have := Nat.mod_lt x (show 256 > 0 by decide)
      rw [ofLE, List.length_cons, Nat.pow_succ]
      omega
  have := hof (load m a w)
  rwa [length_load] at this

theorem readDinode_inRange (sb : Superblock) (d : Dev) (i : Nat) : (readDinode sb d i).InRange := by
  refine ⟨getLE_lt (w := 2), getLE_lt (w := 2), getLE_lt (w := 2), getLE_lt (w := 2),
    getLE_lt (w := 4), fun k => ?_, fun k hk => if_neg (by omega)⟩
  change (if k < 13 then _ else 0) < _
  split
  · exact getLE_lt (w := 4)
  · decide

end Xv6
end SsuComputer
