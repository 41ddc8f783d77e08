import OpenPlc.Lib.Run
import OpenPlc.Lib.Fifo
import OpenPlc.Lib.Memory
import OpenPlc.Lib.Ring
import OpenPlc.Lib.Slots
import OpenPlc.Lib.Signal
import OpenPlc.Lib.Overlap
import OpenPlc.Lib.CString
import OpenPlc.Lib.Blocks
import OpenPlc.Lib.Digits
import OpenPlc.Lib.Links
import OpenPlc.Lib.Loops
import OpenPlc.Lib.While
import OpenPlc.Lib.Wrapping
import OpenPlc.Lib.Agenda
import OpenPlc.Lib.Replacement
import OpenPlc.Usb.ReceiveQueue
import OpenPlc.Usb.ReceiveReaders
import OpenPlc.Usb.ReceiveRun
import OpenPlc.Usb.ReadBytes
import OpenPlc.Usb.Reception
import OpenPlc.Usb.TransmitQueue
import OpenPlc.Usb.Transmission
import OpenPlc.Usb.Keyboard
import OpenPlc.Serial.Transmit
import OpenPlc.Serial.SoftwareSerial
import OpenPlc.Serial.Decoding
import OpenPlc.Serial.Waveform
import OpenPlc.Serial.Reader
import OpenPlc.Serial.Link
import OpenPlc.Serial.Listener
import OpenPlc.Serial.Uart
import OpenPlc.Serial.Prescaler
import OpenPlc.Serial.Receive
import OpenPlc.Storage.Eeprom
import OpenPlc.Storage.Objects
import OpenPlc.Streams.Timed
import OpenPlc.Streams.Print
import OpenPlc.Streams.PrintULL
import OpenPlc.Streams.ParseInt
import OpenPlc.Streams.ParseFloat
import OpenPlc.Streams.FindMulti
import OpenPlc.Text.Itoa
import OpenPlc.Text.Dtostrf
import OpenPlc.Text.WString
import OpenPlc.Text.Represents
import OpenPlc.Text.Strings
import OpenPlc.Text.Replace
import OpenPlc.Text.Search
import OpenPlc.Text.Slices
import OpenPlc.Text.Aliasing
import OpenPlc.Text.Failure
import OpenPlc.Net.Driver
import OpenPlc.Net.Reception
import OpenPlc.Net.Ownership
import OpenPlc.Net.Link
import OpenPlc.Net.Timeouts
import OpenPlc.Lib.Tiling
import OpenPlc.Lib.Pieces
import OpenPlc.Net.MemHeap
import OpenPlc.Net.Allocations
import OpenPlc.Net.DhcpOptions
import OpenPlc.Net.Dhcp
import OpenPlc.Net.DhcpLease
import OpenPlc.Net.Reassembly
import OpenPlc.Net.Fragments
import OpenPlc.Net.RoundTrip
import OpenPlc.Net.Chain
import OpenPlc.Net.Output
import OpenPlc.Net.Udp
import OpenPlc.Net.IPAddress
import OpenPlc.Wire.Twi
import OpenPlc.Wire.SlaveReceive
import OpenPlc.Wire.SlaveTransmit
import OpenPlc.Wire.Segments
import OpenPlc.Wire.TwoWire
import OpenPlc.Wire.Buffers
import OpenPlc.Wire.Timing
import OpenPlc.Wire.BestTiming
import OpenPlc.Wire.TimingCache
import OpenPlc.Spi.Spi
import OpenPlc.Spi.Table
import OpenPlc.Spi.Configured
import OpenPlc.Spi.Transfer
import OpenPlc.Interrupts.Exti
import OpenPlc.Servos.Servo
import OpenPlc.Servos.Pulses
import OpenPlc.Servos.Range
import OpenPlc.Timers.HardwareTimer
import OpenPlc.Timers.Overflow
import OpenPlc.Timers.Compare
import OpenPlc.Timers.Channels
import OpenPlc.Timers.Pairing
import OpenPlc.Tones.Tone
import OpenPlc.Tones.Duration
import OpenPlc.Tones.Ownership
import OpenPlc.Clock.Micros
import OpenPlc.Analog.Resolution
import OpenPlc.Analog.Analog
import OpenPlc.Analog.Pwm
import OpenPlc.Analog.PwmOutput
import OpenPlc.Analog.PwmStop
import OpenPlc.Analog.Dac
import OpenPlc.Watchdog.IWatchdog
import OpenPlc.Watchdog.Window
import OpenPlc.Virtio.Buffer
import OpenPlc.Virtio.Serial
