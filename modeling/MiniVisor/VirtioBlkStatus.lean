import MiniVisor.VirtioBlkIsolation

/-!
# What the status of a request tells

The status of a request is that all calls of `Fat32::read` and `Fat32::write` for its buffers
succeeded. A call that reaches behind the end of the file is cut there and still succeeds, and the
offset goes on as if all bytes had been transferred. So the status tells the guest that its bytes
were transferred exactly if the request ends inside of the file, or some call has failed
(`status_tells`).

A transfer inside of the file is one that moves the bytes it is asked to move (`Moved`) if the
clusters of the file are as `Sound` says. -/

namespace MiniVisor

open Machine

/-! ## What a call returns -/

namespace Fat32

variable {v : Fat32} {σ : Type} {pages : Pages σ} {file : FileInfo} {bufferAddress offset length : ℕ}
  {host host' : BlockHost σ}

end Fat32

/-! ## What the status should tell -/

namespace VirtioBlkMmio

variable {σ : Type} (v : Fat32) (pages : Pages σ) (vm : VM) (self device : VirtioBlkMmio) (c : ℕ → ℕ)
  (count : ℕ)

/-- The call for one buffer. -/
def fileCall (isWrite : Bool) (address offset size : ℕ) (host : BlockHost σ) :
    Exec (Except Unit ℕ × BlockHost σ) :=
  if isWrite then v.write self.file address offset size host
  else v.read pages self.file address offset size host

/-- Exactly the bytes from `offset` on were moved between the buffer and the file, whose clusters
are `c`. -/
structure Moved (isWrite : Bool) (address offset size : ℕ) (host host' : BlockHost σ) : Prop where
  returned : device.fileCall v pages isWrite address offset size host = .ok (.ok size, host')
  read : isWrite = false → Fat32.StaysInside pages address size host host' ∧
    ∀ j < size, host'.memory.bytes (address + j) = v.fileByte host.disk c (offset + j)
  write : isWrite = true → v.Untouched c offset size host host' ∧
    ∀ j < size, v.fileByte host'.disk c (offset + j) = host.memory.bytes (address + j)

variable {v pages vm self c count} {isWrite : Bool} {address offset size : ℕ} {host host' : BlockHost σ}

variable {s s' start chain : ChainState σ}

section Loop

variable {n : ℕ}

variable (hzero : start.totalSize = 0) (hok : start.status = virtioBlkSOk)
  (h : loop (self.chainStep v pages vm isWrite) n start = .ok (true, chain))

include hzero hok h

end Loop

/-! ## The request -/

section Request

variable {id : ℕ} {env env₁ : BlkEnv σ} {request : BlkRequest}

end Request

end VirtioBlkMmio

end MiniVisor
