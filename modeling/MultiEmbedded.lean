import MultiEmbedded.Sd.Wait
import MultiEmbedded.Sd.Command
import MultiEmbedded.Sd.Init
import MultiEmbedded.Heap.Realloc
import MultiEmbedded.Enc.Bank
import MultiEmbedded.Enc.Receive
import MultiEmbedded.Enc.Transmit
import MultiEmbedded.Net.Interrupt
import MultiEmbedded.Net.Process
import MultiEmbedded.Net.PacketSend
import MultiEmbedded.Net.PacketReceive
import MultiEmbedded.Iic.At24c
import MultiEmbedded.Usmart.Args
import MultiEmbedded.Usmart.Declaration
import MultiEmbedded.Lcd.Databus
import MultiEmbedded.Lcd.Line
import MultiEmbedded.Lcd.Fill
import MultiEmbedded.Key.Scan
import MultiEmbedded.Fatfs.Typetell
import MultiEmbedded.Lwip.StackTimers
import MultiEmbedded.Lwip.Icmp
import MultiEmbedded.Lwip.MemRun
import MultiEmbedded.Fat.Mount
