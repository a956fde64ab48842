import Rtes.ReleaseThread

/-!
The Linux sequencers of `sequencer_generic`: `seqgen.c`, `seqgen2.c`, `seqgen3.c` and
`seqv4l2.c`.

Every `sem_post`, completed `sem_wait`, read or write of an abort flag and update of a
counter is one step. A semaphore is its value, at most `SEM_VALUE_MAX`: a `sem_post` of a full one
fails with `EOVERFLOW` and changes nothing, and no caller looks at its result. Sleeping is one step
that returns or ends the process, which is what `exit(-1)` does to all threads at once; the retry
loop around `nanosleep` in `seqgen.c` is inside that step. The counters have 64 bits in the source
and no bound here; where `Sequencer` is a thread it ends before `seqCnt` could wrap around. In
`seqgen3.c` and `seqv4l2.c` the timer runs out any number of times while it is armed, a signal that
is pending when `Sequencer` disarms the timer is still delivered, and nothing keeps two activations
of `Sequencer` apart, since the signal goes to any thread of the process. Time stamps, priorities,
cores and logging are left out.
-/

namespace Rtes.SeqModel

open Rtes.Release Rtes.ReleaseThread

/-- `SEM_VALUE_MAX`, which is `INT_MAX` on Linux. -/
def semValueMax : ℕ := 2147483647

lemma semValueMax_pos : 0 < semValueMax := by decide

/-! ### Seven services -/

/-- `Service_1` to `Service_7`. -/
inductive Service7
  | S1
  | S2
  | S3
  | S4
  | S5
  | S6
  | S7
  deriving DecidableEq

open Service7

/-- The end of `Sequencer`: the posts, then the flags. -/
def shutdown : List (Close Service7) :=
  [.post S1, .post S2, .post S3, .post S4, .post S5, .post S6, .post S7,
    .abort S1, .abort S2, .abort S3, .abort S4, .abort S5, .abort S6, .abort S7]

def seqgen (sequencePeriods : ℕ) : Script Service7 :=
  thread semValueMax_pos
    [(S1, 10), (S2, 30), (S3, 60), (S4, 30), (S5, 60), (S6, 30), (S7, 300)] shutdown
    sequencePeriods

/-- The sub-rates of `seqgen2.c`. -/
def divisor : Service7 → ℕ
  | S1 => 2
  | S2 => 5
  | S3 => 10
  | S4 => 20
  | S5 => 50
  | S6 => 100
  | S7 => 100

def seqgen2 (sequencePeriods : ℕ) : Script Service7 :=
  thread semValueMax_pos ([S1, S2, S3, S4, S5, S6, S7].map fun i => (i, divisor i)) shutdown
    sequencePeriods

/-- `Sequencer` as a handler of `SIGALRM`. The releases of five of the services are commented
out; the services themselves are there. -/
def seqgen3 (sequencePeriods : ℕ) : Script Service7 where
  semMax := semValueMax
  semMax_pos := semValueMax_pos
  entry := [.tick, .release S4 20, .release S7 100, .check]
  again := []
  shutdown := .disarm :: shutdown
  stop := fun abortTest seqCnt => abortTest || decide (sequencePeriods ≤ seqCnt)
  recheck := false
  quits := fun _ _ => false
  timer := true

/-- The three programs that shut down alike. -/
inductive Program
  | seqgen
  | seqgen2
  | seqgen3
  deriving DecidableEq

def Program.script : Program → ℕ → Script Service7
  | .seqgen => SeqModel.seqgen
  | .seqgen2 => SeqModel.seqgen2
  | .seqgen3 => SeqModel.seqgen3

lemma post_mem_shutdown (i : Service7) : .post i ∈ shutdown := by cases i <;> decide

lemma shutdown_nodup : shutdown.Nodup := by decide

lemma Program.post_mem (prog : Program) (n : ℕ) (i : Service7) :
    .post i ∈ (prog.script n).shutdown := by
  cases prog with
  | seqgen => exact post_mem_shutdown i
  | seqgen2 => exact post_mem_shutdown i
  | seqgen3 => exact List.mem_cons_of_mem _ (post_mem_shutdown i)

/-! ### The camera's three services -/

/-- `Service_1_frame_acquisition`, `Service_2_frame_process`, `Service_3_frame_storage`. -/
inductive Service3
  | acquisition
  | process
  | storage
  deriving DecidableEq

open Service3

/-- `Sequencer` tests `abortTest` first and goes on to the releases either way. Services read
their flag again after the wait. `Service_1` sets `abortTest` once `S1Cnt > 250`, and
`Service_3` when `store_cnt == 10`: `store_cnt` is the number of calls of `seq_frame_store`,
all of them made here, which is `S3Cnt`. -/
def seqv4l2 : Script Service3 where
  semMax := semValueMax
  semMax_pos := semValueMax_pos
  entry := [.check, .tick, .release acquisition 20, .release process 100, .release storage 100]
  again := []
  shutdown := [.disarm, .abort acquisition, .abort process, .abort storage,
    .post acquisition, .post process, .post storage]
  stop := fun abortTest _ => abortTest
  recheck := true
  quits := fun i cnt =>
    match i with
    | acquisition => decide (250 < cnt)
    | process => false
    | storage => decide (cnt = 10)
  timer := true

end Rtes.SeqModel
