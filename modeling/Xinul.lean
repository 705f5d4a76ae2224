import Xinul.Lib.Wp
import Xinul.Lib.Seg
import Xinul.Lib.Insert
import Xinul.Lib.Run
import Xinul.Lib.Ring
import Xinul.Lib.Probe
import Xinul.Lib.Cells
import Xinul.Lib.Fuel
import Xinul.Lib.Bytes
import Xinul.Kernel.State
import Xinul.Kernel.Scheduler
import Xinul.Kernel.Semaphore
import Xinul.Kernel.MsgQueue
import Xinul.Kernel.Input
import Xinul.Kernel.Process
import Xinul.Kernel.Machine
import Xinul.Kernel.Hash
import Xinul.Kernel.Frames
import Xinul.Proofs.Frame
import Xinul.Proofs.Fifo
import Xinul.Proofs.Invariant
import Xinul.Proofs.Apart
import Xinul.Proofs.Along
import Xinul.Proofs.Rousing
import Xinul.Proofs.ApartCalls
import Xinul.Proofs.FrameSteps
import Xinul.Proofs.ConsoleRing
import Xinul.Proofs.Action
import Xinul.Proofs.BlockedLists
import Xinul.Proofs.Exec
import Xinul.Proofs.Order
import Xinul.Proofs.Scheduling
import Xinul.Proofs.Semaphores
import Xinul.Proofs.Waiting
import Xinul.Proofs.Messages
import Xinul.Proofs.Mail
import Xinul.Proofs.Interrupts
import Xinul.Proofs.Family
import Xinul.Proofs.Priority
import Xinul.Proofs.Ending
import Xinul.Proofs.Reaping
import Xinul.Proofs.Starting
import Xinul.Proofs.Boot
import Xinul.Proofs.Steps
import Xinul.Runs.Base
import Xinul.Runs.Assertions
import Xinul.Runs.Ended
import Xinul.Runs.Families
import Xinul.Runs.SemaphoreLists
import Xinul.Runs.Order
import Xinul.Runs.Calm
import Xinul.Proofs.MailSteps
import Xinul.Proofs.SemSteps
import Xinul.Runs.Mailboxes
import Xinul.Runs.MailCounts
import Xinul.Runs.Postings
import Xinul.Runs.MailAnswers
import Xinul.Runs.Deliveries
import Xinul.Runs.Rendezvous
import Xinul.Runs.Places
import Xinul.Runs.Grants
import Xinul.Runs.WaitAnswers
import Xinul.Proofs.HashTable
import Xinul.Proofs.HashCalls
import Xinul.Runs.QueueTable
import Xinul.Runs.KillWaiters
import Xinul.Runs.Typing
import Xinul.Runs.HashMap
import Xinul.Proofs.FramePool
import Xinul.Runs.Frames
import Xinul.Runs.Sleepers
import Xinul.Proofs.Bystanders
import Xinul.Runs.Readers
import Xinul.Kernel.Pages
import Xinul.Kernel.ProcessMemory
import Xinul.Kernel.SharedMemory
import Xinul.Kernel.FreeMemory
import Xinul.Proofs.Filling
import Xinul.Proofs.Reserving
import Xinul.Proofs.Allocating
import Xinul.Runs.UserPages
import Xinul.Kernel.Start
import Xinul.Runs.Stacks
import Xinul.Proofs.Releasing
import Xinul.Runs.FreedNodes
import Xinul.Proofs.Waking
import Xinul.Runs.Clock
import Xinul.Proofs.Counting
import Xinul.Runs.Counts
import Xinul.Runs.HashFailures
import Xinul.Lib.Turns
import Xinul.Runs.Entries
import Xinul.Runs.Ticks
import Xinul.Runs.RoundRobin
import Xinul.Kernel.Keyboard
import Xinul.Proofs.Editing
import Xinul.Proofs.Erasing
import Xinul.Runs.Editing
import Xinul.User.Snake
import Xinul.Runs.Snake
import Xinul.Runs.FailedStarts
import Xinul.Runs.Creations
import Xinul.Lib.Links
import Xinul.Kernel.Links
import Xinul.Proofs.Links
import Xinul.Lib.Simulation
import Xinul.Runs.Links
import Xinul.Lib.Riscv
import Xinul.Kernel.Context
import Xinul.Proofs.Context
import Xinul.Kernel.Hart
import Xinul.Proofs.Hart
import Xinul.Runs.Registers
import Xinul.Kernel.VirtualMemory
import Xinul.Proofs.Freeing
import Xinul.Runs.Spaces
import Xinul.Proofs.Confined
import Xinul.Kernel.Residents
import Xinul.Runs.Accesses
import Xinul.Runs.Housing
import Xinul.Runs.Residents
import Xinul.Proofs.Uneventful
import Xinul.Proofs.Leaving
import Xinul.Proofs.Awaiting
import Xinul.Runs.Answering
import Xinul.Runs.Children
import Xinul.Runs.Siblings
