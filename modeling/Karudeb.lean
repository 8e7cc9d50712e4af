import Karudeb.Lib.Word
import Karudeb.Lib.Checked
import Karudeb.Lib.Prog
import Karudeb.Lib.Butterfly
import Karudeb.Lib.Refine
import Karudeb.Lib.Lanes
import Karudeb.Lib.Rvv
import Karudeb.Lib.Ntt
import Karudeb.Lib.Short
import Karudeb.Lib.Buffer
import Karudeb.Lib.Bits
import Karudeb.Lib.Reject
import Karudeb.Lib.Shake
import Karudeb.Lib.Sponge
import Karudeb.Lib.Path
import Karudeb.Lib.Lts
import Karudeb.Lib.Effect
import Karudeb.Lib.Asm
import Karudeb.Lib.Scan
import Karudeb.Fips202.Keccak
import Karudeb.Fips202.KeccakSpec
import Karudeb.Fips202.KeccakF
import Karudeb.Fips202.Permute
import Karudeb.Fips202.Vkeccak
import Karudeb.Mldsa.Reduce
import Karudeb.Mldsa.Ntt
import Karudeb.Mldsa.Rvv
import Karudeb.Mldsa.Fips204
import Karudeb.Mldsa.NttSpec
import Karudeb.Mldsa.Poly
import Karudeb.Mldsa.PolySpec
import Karudeb.Mldsa.Rounding
import Karudeb.Mldsa.Montgomery
import Karudeb.Mldsa.PolyvecSpec
import Karudeb.Mldsa.Pack
import Karudeb.Mldsa.PackSpec
import Karudeb.Mldsa.Encode
import Karudeb.Mldsa.EncodeSpec
import Karudeb.Mldsa.KeySpec
import Karudeb.Mldsa.Sample
import Karudeb.Mldsa.SampleSpec
import Karudeb.Mldsa.Uniform
import Karudeb.Mldsa.Short
import Karudeb.Mldsa.Norm
import Karudeb.Mldsa.Internal
import Karudeb.Mldsa.KeygenSpec
import Karudeb.Mldsa.VerifySpec
import Karudeb.Mldsa.SignSpec
import Karudeb.Mldsa.Interface
import Karudeb.Mldsa.Binding
import Karudeb.Mldsa.Correctness
import Karudeb.Mldsa.Safety
import Karudeb.Mldsa.Builds
import Karudeb.Mlkem.Reduce
import Karudeb.Mlkem.Ntt
import Karudeb.Mlkem.Rvv
import Karudeb.Mlkem.Fips203
import Karudeb.Mlkem.Poly
import Karudeb.Mlkem.NttSpec
import Karudeb.Mlkem.Widening
import Karudeb.Mlkem.PolySpec
import Karudeb.Mlkem.Compress
import Karudeb.Mlkem.CompressSpec
import Karudeb.Mlkem.EncodeSpec
import Karudeb.Mlkem.Sample
import Karudeb.Mlkem.SampleSpec
import Karudeb.Mlkem.Kpke
import Karudeb.Mlkem.Kem
import Karudeb.Mlkem.KpkeSpec
import Karudeb.Mlkem.KemSpec
import Karudeb.Mlkem.Correctness
import Karudeb.Mlkem.Exchange
import Karudeb.Seed.Xattrs
import Karudeb.Seed.Main
import Karudeb.Seed.MainSpec
import Karudeb.Perf.Run
import Karudeb.Perf.Invariant
import Karudeb.Perf.RunSpec
import Karudeb.Bench.Shake
import Karudeb.Bench.ShakeSpec
import Karudeb.Board.MemTest
import Karudeb.Kat.Hex
import Karudeb.Kat.Reader
import Karudeb.Kat.Counters
import Karudeb.Kat.Dilithium
import Karudeb.Kat.DilithiumSpec
import Karudeb.Kat.Kyber
import Karudeb.Kat.KyberSpec
