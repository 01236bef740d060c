import Mdepx.Altera.RoundTrip
import Mdepx.Altera.Writes
import Mdepx.Callout.CancelPass
import Mdepx.Callout.Elapsed
import Mdepx.Callout.NoEarly
import Mdepx.Callout.Period
import Mdepx.Callout.Remaining
import Mdepx.Clint.Timer
import Mdepx.Emitter.Modules
import Mdepx.Eth.Arrival
import Mdepx.Eth.Transmit
import Mdepx.Fifo.Delivery
import Mdepx.Font.Pcf
import Mdepx.Font.Utf8
import Mdepx.Fpu.Arm
import Mdepx.Fpu.Riscv
import Mdepx.Heap.Contents
import Mdepx.Heap.Fit
import Mdepx.Heap.Zones
import Mdepx.I2c.Bitbang
import Mdepx.Init.Device
import Mdepx.Init.Startup
import Mdepx.Locks.Order
import Mdepx.Mqtt.Connect.Answer
import Mdepx.Mqtt.Decode
import Mdepx.Mqtt.Event
import Mdepx.Mqtt.Ids
import Mdepx.Mqtt.Send
import Mdepx.Mutex.Exclusion
import Mdepx.Net.Bounds
import Mdepx.Net.Ping
import Mdepx.Nosched.Sem
import Mdepx.Of.Translate
import Mdepx.Parser.Total
import Mdepx.Ringbuf.Handover
import Mdepx.Sched.Frames
import Mdepx.Sched.Timed
import Mdepx.Sched.Turns
import Mdepx.Smp.Once
import Mdepx.Smp.Work
import Mdepx.Time.Gregorian
import Mdepx.Timer.Periodic
