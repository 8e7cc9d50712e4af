import Karudeb.Lib.Butterfly
import Karudeb.Mlkem.Reduce

/-!
# ML-KEM: the number-theoretic transform

`mlkem_ntt.c`: the transforms as loop nests over layers, blocks and pairs with a
running index into the twiddle table, and the loops over all coefficients.

* `mlkemNtt_eq` and `mlkemInvntt_eq` : the loop nests are seven layers, with the
  twiddle of a block given by its position.
-/

namespace Mlkem

open Word Butterfly

/-- `mlkem_zetas`. -/
def zetas : Table := [
  [-1044, -758, -359, -1517, 1493, 1422, 287, 202, -171, 622, 1577, 182, 962, -1202, -1474, 1468],
  [573, -1325, 264, 383, -829, 1458, -1602, -130, -681, 1017, 732, 608, -1542, 411, -205, -1571],
  [1223, 652, -552, 1015, -1293, 1491, -282, -1544, 516, -8, -320, -666, -1618, -1162, 126, 1469],
  [-853, -90, -271, 830, 107, -1421, -247, -951, -398, 961, -1508, -725, 448, -1065, 677, -1275],
  [-1103, 430, 555, 843, -1251, 871, 1550, 105, 422, 587, 177, -235, -291, -460, 1574, 1653],
  [-246, 778, 1159, -147, -777, 1483, -602, 1119, -1590, 644, -872, 349, 418, 329, -156, -75],
  [817, 1097, 603, 610, 1322, -1285, -1465, 384, -1215, -136, 1218, -1335, -874, 220, -1187, -1659],
  [-1185, -1530, -1278, 794, -1510, -854, -870, 478, -108, -308, 996, 991, 958, -1460, 1522, 1628]]

/-- The body of the inner loop of `mlkem_ntt`. -/
def nttBfly (zeta u v : ℤ) : Chk (ℤ × ℤ) := do
  let t ← fqmul zeta v
  let hi ← Chk.word 16 (u - t)
  let lo ← Chk.word 16 (u + t)
  pure (lo, hi)

/-- `mlkem_ntt`. -/
def mlkemNtt (r : Vector ℤ 256) : Chk (Vector ℤ 256) :=
  Prod.fst <$> [128, 64, 32, 16, 8, 4, 2].foldlM
    (fun s len => blocks nttBfly (fun k => (zetas.rd k, k + 1)) len s) (r, 1)

/-- The body of the inner loop of `mlkem_invntt`. -/
def invnttBfly (zeta u v : ℤ) : Chk (ℤ × ℤ) := do
  let s ← Chk.word 16 (u + v)
  let lo ← barrettReduce s
  let d ← Chk.word 16 (v - u)
  let hi ← fqmul zeta d
  pure (lo, hi)

/-- `mlkem_invntt`. -/
def mlkemInvntt (r : Vector ℤ 256) : Chk (Vector ℤ 256) := do
  let s ← [2, 4, 8, 16, 32, 64, 128].foldlM
    (fun s len => blocks invnttBfly (fun k => (zetas.rd k, k - 1)) len s) (r, 127)
  Chk.tab 256 fun j => fqmul (s.1.rd j) 1441

/-! ## Layers -/

/-- **The loop nest of `mlkem_ntt` is seven layers.** -/
theorem mlkemNtt_eq (r : Vector ℤ 256) :
    mlkemNtt r = [128, 64, 32, 16, 8, 4, 2].foldlM
      (fun a len => layerChk len (fun b => nttBfly (zetas.rd (128 / len + b))) a) r := by
  have hs : Schedule 256 (fun k => (zetas.rd k, k + 1))
      (fun len b => zetas.rd (128 / len + b)) 1 [128, 64, 32, 16, 8, 4, 2] := by
    simp [Schedule, count_up]
  have h := foldlM_blocks nttBfly _ _ hs r
  unfold mlkemNtt
  exact h

/-- **The loop nest of `mlkem_invntt` is seven layers and a scaling.** -/
theorem mlkemInvntt_eq (r : Vector ℤ 256) :
    mlkemInvntt r = (do
      let a ← [2, 4, 8, 16, 32, 64, 128].foldlM
        (fun a len => layerChk len (fun b => invnttBfly (zetas.rd (256 / len - 1 - b))) a) r
      Chk.tab 256 fun j => fqmul (a.rd j) 1441) := by
  have hs : Schedule 256 (fun k => (zetas.rd k, k - 1))
      (fun len b => zetas.rd (256 / len - 1 - b)) 127 [2, 4, 8, 16, 32, 64, 128] := by
    simp [Schedule, count_down]
  have h := congrArg (fun x => x >>= fun a : Vector ℤ 256 =>
    Chk.tab 256 fun j => fqmul (a.rd j) 1441) (foldlM_blocks invnttBfly _ _ hs r)
  rw [mlkemInvntt]
  simpa only [bind_map_left] using h

end Mlkem
