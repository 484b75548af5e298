import Pintos.Userprog.Load

/-!
# New processes

`process_execute`, `start_process` and `process_exit` of `fs_PintOS/userprog/process.c`, and what they
use of `thread_create` and `thread_exit`.

The parent and the child do not share what they work on, except for the page with the copy of the
command line, which is handed over; so the child is run once `process_execute` is through.  The page
directory and the executable of the state are those of the child.

What the program does is no part of this code and is given as a command, `user`, which runs until
the process comes to `thread_exit`.  The record of the child, which the parent keeps, comes from
`malloc`.
-/

namespace Pintos.Userprog

open Lib Strings
open Vm (Memory PageDir PageTable Pte Image PallocFlags pgSize physBase isUserVaddr pdNo ptNo fillPage
  copyBytes)

/-- `strlcpy (dst, file_name, PGSIZE)`, for the string `process_execute` is called with. -/
def copyLine (dst : ℕ) (fileName : List UInt8) : Code Unit := do
  assert (dst ≠ 0)
  let line := fileName.take (pgSize - 1)
  change fun k => { k with mem := copyBytes k.mem dst (line.length + 1) fun i => line.getD i 0 }

/-- `thread_create`: the page of the new thread.  Its record is used without a test for null. -/
def threadCreate : Code (Option ℕ) := do
  match ← pallocGetPage { zero := true } with
  | none => pure none
  | some page => do
      if ← malloc then return some page else stop .kernelBug

/-- `process_execute`, once the executable is open. -/
def executeThread (fnCopy : ℕ) : Code (Option (ℕ × ℕ)) := do
  match ← threadCreate with
  | none => do
      pallocFreePage fnCopy
      return none
  | some thread => return some (fnCopy, thread)

/-- `process_execute`, once the first word of the line is known. -/
def executeFile (fnCopy argOne : ℕ) (token : Option (List UInt8)) : Code (Option (ℕ × ℕ)) := do
  match ← filesysOpen token with
  | none => do
      pallocFreePage fnCopy
      pallocFreePage argOne
      return none
  | some _ => executeThread fnCopy

/-- `process_execute`: the page with the copy of the command line and the page of the new thread, or
`TID_ERROR`. -/
def processExecute (fuel : ℕ) (fileName : List UInt8) : Code (Option (ℕ × ℕ)) := do
  match ← pallocGetPage {} with
  | none => do
      -- of a null pointer, which does nothing
      pallocFreePage 0
      return none
  | some fnCopy => do
      copyLine fnCopy fileName
      match ← pallocGetPage {} with
      | none => do
          pallocFreePage fnCopy
          return none
      | some argOne => do
          copyLine argOne fileName
          let (token, _) ← onMemory (strtokR fuel space argOne 0)
          executeFile fnCopy argOne (← nameAt fuel token)

/-- The state in which the new thread starts. -/
def Kernel.newThread (k : Kernel) : Kernel := { k with pagedir := none, execFile := none }

/-- `start_process`, up to the jump to the program: whether it is made. -/
def startProcess (fuel fileName : ℕ) : Code Bool := do
  let success ← load fuel fileName
  pallocFreePage fileName
  return success

/-- How far a call of `process_execute` and the child it makes come. -/
inductive Spawned where
  /-- `TID_ERROR`. -/
  | refused
  /-- `load` returned false in the thread that has this page. -/
  | failed (thread : ℕ)
  /-- The program starts. -/
  | started (thread : ℕ)

/-- `process_execute`, and the child up to its program. -/
def spawn (fuel : ℕ) (fileName : List UInt8) : Code Spawned := do
  match ← processExecute fuel fileName with
  | none => return .refused
  | some (fnCopy, thread) => do
      change Kernel.newThread
      let success ← startProcess fuel fnCopy
      return if success then .started thread else .failed thread

/-- `process_exit`. -/
def processExit : Code Unit := do
  let file ← fetch Kernel.execFile
  fileClose file
  let pd ← fetch Kernel.pagedir
  change fun k => { k with pagedir := none }
  pagedirDestroy pd

/-- `thread_exit`, and what the scheduler does with the page of the thread. -/
def threadExit (thread : ℕ) : Code Unit := do
  processExit
  pallocFreePage thread

/-- The life of a process. -/
def execute (fuel : ℕ) (fileName : List UInt8) (user : Code Unit) : Code Unit := do
  match ← spawn fuel fileName with
  | .refused => pure ()
  | .failed thread => threadExit thread
  | .started thread => do
      user
      threadExit thread

end Pintos.Userprog
