import DistBuild.Machinery.Pipes
import DistBuild.Machinery.Posix

/-!
# Compiler/Pipes — reading what the compiler prints

    compiler_process.wait();
    stdout_oss << stdout_stream.rdbuf();  stderr_oss << stderr_stream.rdbuf();

A compiler is run in three places, and in each the parent waits for the child before it reads
either stream.  So the child can print no more than its pipes hold: a longer diagnostic leaves it
before a full pipe and the parent before its exit (`compiler_output_complete_iff`).
-/

namespace DistBuild

/-- The streams of the compiler that are redirected into pipes. -/
inductive Stream
  | stdout
  | stderr
deriving DecidableEq, Repr

instance : Fintype Stream where
  elems := {.stdout, .stderr}
  complete c := by cases c <;> decide

/-- Wait for the child, then read both streams to their ends. -/
def waitAndRead : List (Pipes.Op Stream) := [.wait, .drain .stdout, .drain .stderr]

/-- The parent in `CompilerManager::_compile_src`. -/
def compileSrcParent : List (Pipes.Op Stream) := waitAndRead

/-- The parent in `ClientSession::perform_local_compilation`. -/
def performLocalCompilationParent : List (Pipes.Op Stream) := waitAndRead

/-- The parent in `Client::_handle_ipc_request`: after a compilation that failed remotely, and where
nothing is compiled remotely. -/
def handleIpcRequestParent : List (Pipes.Op Stream) := waitAndRead

theorem waitAndRead_completes_iff (cap : ℕ) (output : Stream → Str) :
    Pipes.Completes cap waitAndRead output ↔ ∀ c, (output c).length ≤ cap :=
  Pipes.waitFirst_completes_iff cap [Stream.stdout, Stream.stderr] (by decide) output

/-- **The parents get the compiler's output exactly if each stream fits its pipe.** -/
theorem compiler_output_complete_iff (cap : ℕ) (output : Stream → Str) :
    (Pipes.Completes cap compileSrcParent output ↔ ∀ c, (output c).length ≤ cap)
      ∧ (Pipes.Completes cap performLocalCompilationParent output ↔ ∀ c, (output c).length ≤ cap)
      ∧ (Pipes.Completes cap handleIpcRequestParent output ↔ ∀ c, (output c).length ≤ cap) :=
  ⟨waitAndRead_completes_iff cap output, waitAndRead_completes_iff cap output,
    waitAndRead_completes_iff cap output⟩

/-- Errors of one byte more than a pipe of 64 KiB. -/
def longDiagnostics : Stream → Str
  | .stdout => []
  | .stderr => List.replicate 65537 33

/-- The parents do not get them. -/
theorem longDiagnostics_block :
    ¬ Pipes.Completes 65536 compileSrcParent longDiagnostics
      ∧ ¬ Pipes.Completes 65536 performLocalCompilationParent longDiagnostics
      ∧ ¬ Pipes.Completes 65536 handleIpcRequestParent longDiagnostics := by
  have hlong : ¬ Pipes.Completes 65536 waitAndRead longDiagnostics := by
    intro h
    have hlen : (List.replicate 65537 (33 : UInt8)).length ≤ 65536 :=
      (waitAndRead_completes_iff 65536 longDiagnostics).mp h .stderr
    rw [List.length_replicate] at hlen
    omega
  exact ⟨hlong, hlong, hlong⟩

end DistBuild
